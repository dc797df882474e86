import Mathlib.Data.List.Basic
import Mathlib.Logic.Function.Basic
import Mathlib.Data.Nat.Basic
import Mathlib.Order.Nat

/-! Ring buffers over an array of slots.
Entry `i` of a buffer is in slot `(head + i) % cap`. The list of the entries, oldest first, says
what the operations on slots do. -/

structure RingBuffer (α : Type) where
  slots : Nat → α
  head : Nat := 0
  size : Nat := 0
  cap : Nat

namespace RingBuffer

variable {α : Type} {r : RingBuffer α} {i j k : Nat} {x : α}

/-- Where entry `i` is; for `i = size` the slot behind the last entry. -/
def slot (r : RingBuffer α) (i : Nat) : Nat := (r.head + i) % r.cap

def get (r : RingBuffer α) (i : Nat) : α := r.slots (r.slot i)

def write (r : RingBuffer α) (k : Nat) (x : α) : RingBuffer α :=
  { r with slots := Function.update r.slots k x }

def push (r : RingBuffer α) (x : α) : RingBuffer α :=
  { r.write (r.slot r.size) x with size := r.size + 1 }

def modify (f : α → α) (r : RingBuffer α) (i : Nat) :
    RingBuffer α := r.write (r.slot i) (f (r.get i))

def pop (r : RingBuffer α) : RingBuffer α :=
  { r with head := (r.head + 1) % r.cap, size := r.size - 1 }

def clear (r : RingBuffer α) : RingBuffer α := { r with size := 0 }

def toList (r : RingBuffer α) : List α := (List.range r.size).map r.get

def youngest (r : RingBuffer α) (p : α → Bool) : Option Nat :=
  ((List.range r.size).map fun j => (r.head + r.size - 1 - j) % r.cap).find? fun k => p (r.slots k)

@[simp] theorem write_head : (r.write k x).head = r.head := rfl
@[simp] theorem write_size : (r.write k x).size = r.size := rfl
@[simp] theorem write_cap : (r.write k x).cap = r.cap := rfl
@[simp] theorem write_slot : (r.write k x).slot i = r.slot i := rfl
@[simp] theorem push_size : (r.push x).size = r.size + 1 := rfl
@[simp] theorem push_cap : (r.push x).cap = r.cap := rfl
@[simp] theorem push_slot : (r.push x).slot i = r.slot i := rfl
@[simp] theorem pop_size : r.pop.size = r.size - 1 := rfl
@[simp] theorem pop_cap : r.pop.cap = r.cap := rfl
@[simp] theorem clear_size : r.clear.size = 0 := rfl
@[simp] theorem clear_cap : r.clear.cap = r.cap := rfl

theorem slot_inj (hi : i < r.cap) (hj : j < r.cap) (h : r.slot i = r.slot j) : i = j := by
  have apart : ∀ {a b : Nat}, b < r.cap → a ≤ b → r.slot a = r.slot b → a = b := by
    intro a b hb hab he
    have hd : r.cap ∣ (r.head + b) - (r.head + a) :=
      Nat.dvd_of_mod_eq_zero (Nat.sub_mod_eq_zero_of_mod_eq he.symm)
    have small : (r.head + b) - (r.head + a) < r.cap := by omega
    have := Nat.eq_zero_of_dvd_of_lt hd small
    omega
  rcases Nat.le_total i j with hij | hji
  · exact apart hj hij h
  · exact (apart hi hji h.symm).symm

theorem get_write_slot (hi : i < r.cap) (hj : j < r.cap) :
    (r.write (r.slot i) x).get j = if j = i then x else r.get j := by
  unfold get write
  show Function.update r.slots (r.slot i) x (r.slot j) = _
  split
  · rename_i h
    rw [h, Function.update_self]
  · rename_i h
    exact Function.update_of_ne (fun he => h (slot_inj hj hi he)) _ _

theorem modify_eq_self {f : α → α} (h : f (r.get i) = r.get i) : r.modify f i = r := by
  unfold modify write
  rw [h, get, Function.update_eq_self]

@[simp] theorem foldl_modify_size {f : α → α} {is : List Nat} :
    (is.foldl (modify f) r).size = r.size := by
  induction is generalizing r with
  | nil => rfl
  | cons i is ih => exact ih

@[simp] theorem foldl_modify_head {f : α → α} {is : List Nat} :
    (is.foldl (modify f) r).head = r.head := by
  induction is generalizing r with
  | nil => rfl
  | cons i is ih => exact ih

@[simp] theorem foldl_modify_cap {f : α → α} {is : List Nat} :
    (is.foldl (modify f) r).cap = r.cap := by
  induction is generalizing r with
  | nil => rfl
  | cons i is ih => exact ih

theorem get_foldl_modify {f : α → α} (idem : ∀ x, f (f x) = f x) {is : List Nat}
    (h : r.size ≤ r.cap) (his : ∀ i ∈ is, i < r.size) (hj : j < r.size) :
    (is.foldl (modify f) r).get j = if j ∈ is then f (r.get j) else r.get j := by
  induction is generalizing r with
  | nil => exact (if_neg List.not_mem_nil).symm
  | cons i is ih =>
    obtain ⟨hi, rest⟩ := List.forall_mem_cons.mp his
    have one : (r.modify f i).get j = if j = i then f (r.get i) else r.get j :=
      get_write_slot (hi.trans_le h) (hj.trans_le h)
    rw [List.foldl_cons, ih (r := r.modify f i) h rest hj, one]
    by_cases here : j = i
    · rw [if_pos here, here, if_pos List.mem_cons_self, idem, ite_self]
    · have member : j ∈ i :: is ↔ j ∈ is :=
        ⟨fun h => (List.mem_cons.mp h).resolve_left here, List.mem_cons_of_mem i⟩
      rw [if_neg here]
      simp only [member]

theorem get_push_lt (h : r.size < r.cap) (hi : i < r.size) : (r.push x).get i = r.get i := by
  have := get_write_slot (r := r) (x := x) h (hi.trans h)
  rw [if_neg hi.ne] at this
  exact this

theorem get_push_size (h : r.size < r.cap) : (r.push x).get r.size = x := by
  have := get_write_slot (r := r) (x := x) h h
  rw [if_pos rfl] at this
  exact this

theorem slot_pop : r.pop.slot i = r.slot (i + 1) := by
  unfold slot pop
  show ((r.head + 1) % r.cap + i) % r.cap = (r.head + (i + 1)) % r.cap
  rw [Nat.mod_add_mod, Nat.add_assoc, Nat.add_comm 1 i]

theorem get_pop : r.pop.get i = r.get (i + 1) := by
  unfold get
  rw [slot_pop]
  rfl

@[simp] theorem toList_length : r.toList.length = r.size := by simp [toList]

theorem toList_getElem? : r.toList[i]? = if i < r.size then some (r.get i) else none := by
  unfold toList
  split
  · rename_i h
    simp [h]
  · rename_i h
    simp [Nat.not_lt.mp h]

theorem toList_congr {s : RingBuffer α} (hs : s.size = r.size)
    (h : ∀ i < r.size, s.get i = r.get i) : s.toList = r.toList := by
  unfold toList
  rw [hs]
  exact List.map_congr_left fun i hi => h i (List.mem_range.mp hi)

theorem toList_write (hi : i < r.size) (h : r.size ≤ r.cap) :
    (r.write (r.slot i) x).toList = r.toList.set i x := by
  refine List.ext_getElem? fun j => ?_
  rw [toList_getElem?, List.getElem?_set, toList_getElem?, toList_length]
  by_cases hj : j < r.size
  · rw [if_pos hj, get_write_slot (hi.trans_le h) (hj.trans_le h), write_size, if_pos hj]
    by_cases he : i = j
    · rw [if_pos he.symm, if_pos he, if_pos hi]
    · rw [if_neg (Ne.symm he), if_neg he]
  · have he : i ≠ j := fun he => hj (he ▸ hi)
    rw [write_size, if_neg hj, if_neg he, if_neg hj]

theorem mem_toList : x ∈ r.toList ↔ ∃ i < r.size, r.get i = x := by
  unfold toList
  simp only [List.mem_map, List.mem_range]

theorem toList_write_free (h : r.size < r.cap) : (r.write (r.slot r.size) x).toList = r.toList :=
  toList_congr rfl fun i hi => by rw [get_write_slot h (hi.trans h), if_neg hi.ne]

theorem toList_push (h : r.size < r.cap) : (r.push x).toList = r.toList ++ [x] := by
  unfold toList
  rw [push_size, List.range_succ, List.map_append, List.map_singleton, get_push_size h]
  congr 1
  exact List.map_congr_left fun i hi => get_push_lt h (List.mem_range.mp hi)

theorem toList_pop (h : 0 < r.size) : r.toList = r.get 0 :: r.pop.toList := by
  obtain ⟨n, hn⟩ : ∃ n, r.size = n + 1 := ⟨r.size - 1, by omega⟩
  unfold toList
  rw [pop_size, hn, Nat.add_sub_cancel, List.range_succ_eq_map, List.map_cons, List.map_map]
  congr 1
  exact List.map_congr_left fun i _ => get_pop.symm

theorem slot_zero (h : r.head < r.cap) : r.slot 0 = r.head := Nat.mod_eq_of_lt h

theorem get_write_pop (hh : r.head < r.cap) (hi : i + 1 < r.cap) :
    (r.write r.head x).pop.get i = r.get (i + 1) := by
  rw [get_pop]
  have written := get_write_slot (r := r) (i := 0) (x := x) (Nat.zero_lt_of_lt hi) hi
  rw [slot_zero hh, if_neg (Nat.succ_ne_zero i)] at written
  exact written

theorem toList_write_pop (hh : r.head < r.cap) (hs : 0 < r.size) (h : r.size ≤ r.cap) :
    r.toList = r.slots r.head :: (r.write r.head x).pop.toList := by
  rw [toList_pop hs]
  congr 1
  · rw [get, slot_zero hh]
  · have same : (r.write r.head x).pop.size = r.pop.size := rfl
    refine (toList_congr same fun i hi => ?_).symm
    rw [pop_size] at hi
    rw [get_write_pop hh (by omega), get_pop]

@[simp] theorem toList_clear : r.clear.toList = [] := rfl

theorem youngest_some {p : α → Bool} {k : Nat} (h : r.youngest p = some k) :
    ∃ i < r.size, k = r.slot i ∧ p (r.get i) = true ∧ ∀ m, i < m → m < r.size →
      p (r.get m) = false := by
  unfold youngest at h
  rw [List.find?_map, Option.map_eq_some_iff] at h
  obtain ⟨j, hj, rfl⟩ := h
  have back : ∀ n < r.size, (r.head + r.size - 1 - n) % r.cap = r.slot (r.size - 1 - n) := by
    intro n hn
    unfold slot
    congr 1
    omega
  rw [List.find?_range_eq_some] at hj
  obtain ⟨hp, hlt, hall⟩ := hj
  have hlt := List.mem_range.mp hlt
  refine ⟨r.size - 1 - j, by omega, back j hlt, ?_, fun m hm hms => ?_⟩
  · rw [Function.comp, back j hlt] at hp
    exact hp
  · have hn : r.size - 1 - m < j := by omega
    have hm' : r.size - 1 - (r.size - 1 - m) = m := by omega
    have older := hall _ hn
    rw [Function.comp, back _ (hn.trans hlt), hm', Bool.not_eq_true'] at older
    exact older

theorem youngest_none {p : α → Bool} : r.youngest p = none → ∀ i < r.size, p (r.get i) = false := by
  intro h i hi
  unfold youngest at h
  rw [List.find?_eq_none] at h
  have hmem : r.slot i ∈ (List.range r.size).map fun j => (r.head + r.size - 1 - j) % r.cap := by
    refine List.mem_map.mpr ⟨r.size - 1 - i, List.mem_range.mpr (by omega), ?_⟩
    unfold slot
    congr 1
    omega
  exact Bool.eq_false_iff.mpr (h _ hmem)

theorem youngest_congr {s : RingBuffer α} (hh : s.head = r.head) (hs : s.size = r.size)
    (hc : s.cap = r.cap) (h : ∀ i < r.size, s.get i = r.get i) (p : α → Bool) :
    s.youngest p = r.youngest p := by
  have slots : ∀ i, s.slot i = r.slot i := fun i => by rw [slot, slot, hh, hc]
  cases hr : r.youngest p with
  | none =>
    cases hy : s.youngest p with
    | none => rfl
    | some k =>
      obtain ⟨i, hi, -, hp, -⟩ := youngest_some hy
      rw [h i (hs ▸ hi), youngest_none hr i (hs ▸ hi)] at hp
      cases hp
  | some k =>
    obtain ⟨i, hi, rfl, hp, last⟩ := youngest_some hr
    cases hy : s.youngest p with
    | none =>
      have := youngest_none hy i (hs.symm ▸ hi)
      rw [h i hi, hp] at this
      cases this
    | some k =>
      obtain ⟨j, hj, rfl, hq, last'⟩ := youngest_some hy
      rw [h j (hs ▸ hj)] at hq
      rcases Nat.lt_trichotomy i j with hij | rfl | hji
      · rw [last j hij (hs ▸ hj)] at hq
        cases hq
      · rw [slots]
      · have := last' i hji (hs.symm ▸ hi)
        rw [h i hi, hp] at this
        cases this

end RingBuffer
