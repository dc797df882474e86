import Mathlib.Data.List.TakeWhile
import Mathlib.Data.List.Sort
import Mathlib.Order.Basic
import Mathlib.Algebra.GroupWithZero.Nat
import Mathlib.Algebra.BigOperators.Group.Finset.Basic
import Mathlib.Algebra.BigOperators.Group.Finset.Piecewise

/-! Ordered maps as association lists.
Keys ascend strictly; an insertion leaves an entry that is there as it is, and a search for the
first key that is not below a bound is followed by a walk upwards. An assignment replaces the entry
of its key. This is the discipline of the tree maps of the usual standard libraries. -/

namespace OrderedMap

variable {K V : Type} [LinearOrder K] {k lo hi : K} {v : V} {m : List (K × V)} {e : K × V}

def insert (k : K) (v : V) : List (K × V) → List (K × V)
  | [] => [(k, v)]
  | e :: m => if k < e.1 then (k, v) :: e :: m else if k = e.1 then e :: m else e :: insert k v m

/-- The entries from the first key on that is not below `k`. -/
def lowerBound (k : K) (m : List (K × V)) : List (K × V) := m.dropWhile (fun e => e.1 < k)

/-- The search ends at or above `hi`, or finds nothing. -/
def clear (lo hi : K) (m : List (K × V)) : Bool :=
  match lowerBound lo m with
  | [] => true
  | e :: _ => hi ≤ e.1

/-- A walk from `lo` to `hi` comes by an entry with such a value. -/
def meets (lo hi : K) (p : V → Bool) (m : List (K × V)) : Bool :=
  ((lowerBound lo m).takeWhile (fun e => e.1 < hi)).any (fun e => p e.2)

def Ordered (m : List (K × V)) : Prop := m.Pairwise (fun a b => a.1 < b.1)

@[simp] theorem ordered_nil : Ordered ([] : List (K × V)) := List.Pairwise.nil

theorem of_mem_insert (h : e ∈ insert k v m) : e = (k, v) ∨ e ∈ m := by
  induction m with
  | nil => exact .inl (List.mem_singleton.mp h)
  | cons a m ih =>
    unfold insert at h
    split at h
    · exact List.mem_cons.mp h
    · split at h
      · exact .inr h
      · rcases List.mem_cons.mp h with rfl | h
        · exact .inr List.mem_cons_self
        · exact (ih h).imp_right (List.mem_cons_of_mem a)

theorem mem_insert_of_mem (h : e ∈ m) : e ∈ insert k v m := by
  induction m with
  | nil => cases h
  | cons a m ih =>
    unfold insert
    split
    · exact List.mem_cons_of_mem _ h
    · split
      · exact h
      · rcases List.mem_cons.mp h with rfl | h
        · exact List.mem_cons_self
        · exact List.mem_cons_of_mem _ (ih h)

theorem mem_insert_self (h : ∀ e ∈ m, e.1 ≠ k) : (k, v) ∈ insert k v m := by
  induction m with
  | nil => exact List.mem_singleton_self _
  | cons a m ih =>
    unfold insert
    split
    · exact List.mem_cons_self
    · rw [if_neg (h a List.mem_cons_self).symm]
      exact List.mem_cons_of_mem _ (ih fun e he => h e (List.mem_cons_of_mem a he))

theorem insert_ordered (h : Ordered m) : Ordered (insert k v m) := by
  induction m with
  | nil => exact List.pairwise_singleton _ _
  | cons a m ih =>
    obtain ⟨ha, hm⟩ := List.pairwise_cons.mp h
    unfold insert
    split
    · rename_i lt
      refine List.pairwise_cons.mpr ⟨fun b hb => ?_, h⟩
      rcases List.mem_cons.mp hb with rfl | hb
      · exact lt
      · exact lt.trans (ha b hb)
    · rename_i ge
      split
      · exact h
      · rename_i ne
        refine List.pairwise_cons.mpr ⟨fun b hb => ?_, ih hm⟩
        rcases of_mem_insert hb with rfl | hb
        · exact lt_of_le_of_ne (not_lt.mp ge) (Ne.symm ne)
        · exact ha b hb

theorem lowerBound_ordered (h : Ordered m) : Ordered (lowerBound k m) :=
  h.sublist (List.dropWhile_sublist _)

theorem mem_lowerBound (h : Ordered m) : e ∈ lowerBound k m ↔ e ∈ m ∧ k ≤ e.1 := by
  induction m with
  | nil => simp [lowerBound]
  | cons a m ih =>
    obtain ⟨ha, hm⟩ := List.pairwise_cons.mp h
    unfold lowerBound at ih ⊢
    by_cases lt : a.1 < k
    · rw [List.dropWhile_cons_of_pos (by simpa using lt), ih hm, List.mem_cons]
      refine ⟨fun h => ⟨.inr h.1, h.2⟩, fun h => ⟨h.1.resolve_left ?_, h.2⟩⟩
      rintro rfl
      exact absurd h.2 (not_le.mpr lt)
    · rw [List.dropWhile_cons_of_neg (by simpa using lt)]
      refine ⟨fun he => ⟨he, ?_⟩, And.left⟩
      rcases List.mem_cons.mp he with rfl | he
      · exact not_lt.mp lt
      · exact (not_lt.mp lt).trans (ha e he).le

theorem clear_iff (h : Ordered m) : clear lo hi m = true ↔ ∀ e ∈ m, lo ≤ e.1 → hi ≤ e.1 := by
  have found : ∀ e, e ∈ lowerBound lo m ↔ e ∈ m ∧ lo ≤ e.1 := fun e => mem_lowerBound h
  unfold clear
  cases hb : lowerBound lo m with
  | nil =>
    refine ⟨fun _ e he hle => ?_, fun _ => rfl⟩
    have mem := (found e).mpr ⟨he, hle⟩
    rw [hb] at mem
    cases mem
  | cons a rest =>
    have ordered : Ordered (lowerBound lo m) := lowerBound_ordered h
    rw [hb] at ordered
    rw [decide_eq_true_iff]
    constructor
    · intro le e he hle
      have mem := (found e).mpr ⟨he, hle⟩
      rw [hb] at mem
      rcases List.mem_cons.mp mem with rfl | mem
      · exact le
      · exact le.trans ((List.pairwise_cons.mp ordered).1 e mem).le
    · intro all
      have mem : a ∈ lowerBound lo m := hb ▸ List.mem_cons_self
      obtain ⟨ha, hle⟩ := (found a).mp mem
      exact all a ha hle

theorem mem_takeWhile (h : Ordered m) :
    e ∈ m.takeWhile (fun e => e.1 < hi) ↔ e ∈ m ∧ e.1 < hi := by
  induction m with
  | nil => simp
  | cons a m ih =>
    obtain ⟨ha, hm⟩ := List.pairwise_cons.mp h
    by_cases lt : a.1 < hi
    · rw [List.takeWhile_cons_of_pos (by simpa using lt), List.mem_cons, ih hm, List.mem_cons]
      constructor
      · rintro (rfl | h)
        · exact ⟨.inl rfl, lt⟩
        · exact ⟨.inr h.1, h.2⟩
      · exact fun h => h.1.imp_right fun he => ⟨he, h.2⟩
    · rw [List.takeWhile_cons_of_neg (by simpa using lt)]
      refine ⟨fun he => absurd he List.not_mem_nil, fun h => absurd h.2 ?_⟩
      rcases List.mem_cons.mp h.1 with rfl | he
      · exact lt
      · exact fun hlt => lt ((ha e he).trans hlt)

theorem meets_iff (h : Ordered m) {p : V → Bool} :
    meets lo hi p m = true ↔ ∃ e ∈ m, lo ≤ e.1 ∧ e.1 < hi ∧ p e.2 = true := by
  unfold meets
  rw [List.any_eq_true]
  constructor
  · rintro ⟨e, he, hp⟩
    obtain ⟨he, lt⟩ := (mem_takeWhile (lowerBound_ordered h)).mp he
    obtain ⟨he, le⟩ := (mem_lowerBound h).mp he
    exact ⟨e, he, le, lt, hp⟩
  · rintro ⟨e, he, le, lt, hp⟩
    exact ⟨e, (mem_takeWhile (lowerBound_ordered h)).mpr ⟨(mem_lowerBound h).mpr ⟨he, le⟩, lt⟩, hp⟩

section Find

variable {j : K}

def find (k : K) : List (K × V) → Option V
  | [] => none
  | e :: m => if e.1 = k then some e.2 else find k m

def assign (k : K) (v : V) : List (K × V) → List (K × V)
  | [] => [(k, v)]
  | e :: m =>
    if k < e.1 then (k, v) :: e :: m else if k = e.1 then (k, v) :: m else e :: assign k v m

def erase (k : K) (m : List (K × V)) : List (K × V) := m.filter fun e => e.1 ≠ k

theorem find_cons : find k (e :: m) = if e.1 = k then some e.2 else find k m := rfl

theorem find_eq_none : find k m = none ↔ ∀ e ∈ m, e.1 ≠ k := by
  induction m with
  | nil => simp [find]
  | cons e m ih =>
    unfold find
    by_cases same : e.1 = k
    · simp [same]
    · simp [same, ih]

theorem mem_of_find (h : find k m = some v) : (k, v) ∈ m := by
  induction m with
  | nil => cases h
  | cons e m ih =>
    unfold find at h
    split at h
    · rename_i same
      cases h
      rw [← same]
      exact List.mem_cons_self
    · exact List.mem_cons_of_mem e (ih h)

theorem find_of_mem (h : Ordered m) (he : (k, v) ∈ m) : find k m = some v := by
  induction m with
  | nil => cases he
  | cons e m ih =>
    obtain ⟨first, hm⟩ := List.pairwise_cons.mp h
    unfold find
    rcases List.mem_cons.mp he with rfl | he
    · exact if_pos rfl
    · rw [if_neg (first _ he).ne]
      exact ih hm he

theorem find_assign (k : K) (v : V) (m : List (K × V)) (j : K) :
    find j (assign k v m) = if j = k then some v else find j m := by
  induction m with
  | nil =>
    by_cases same : j = k
    · simp [assign, find, same]
    · simp [assign, find, same, Ne.symm same]
  | cons e m ih =>
    by_cases same : j = k
    · subst same
      rw [if_pos rfl] at ih ⊢
      unfold assign
      split
      · exact if_pos rfl
      · split
        · exact if_pos rfl
        · rename_i other
          unfold find
          rw [if_neg (Ne.symm other), ih]
    · rw [if_neg same] at ih ⊢
      unfold assign
      split
      · exact if_neg (Ne.symm same)
      · split
        · rename_i here
          unfold find
          rw [if_neg (Ne.symm same), ← here, if_neg (Ne.symm same)]
        · unfold find
          rw [ih]

theorem of_mem_assign (h : e ∈ assign k v m) : e = (k, v) ∨ e ∈ m := by
  induction m with
  | nil => exact .inl (List.mem_singleton.mp h)
  | cons a m ih =>
    unfold assign at h
    split at h
    · exact List.mem_cons.mp h
    · split at h
      · exact (List.mem_cons.mp h).imp_right (List.mem_cons_of_mem a)
      · rcases List.mem_cons.mp h with rfl | h
        · exact .inr List.mem_cons_self
        · exact (ih h).imp_right (List.mem_cons_of_mem a)

theorem assign_ordered (h : Ordered m) : Ordered (assign k v m) := by
  induction m with
  | nil => exact List.pairwise_singleton _ _
  | cons a m ih =>
    obtain ⟨ha, hm⟩ := List.pairwise_cons.mp h
    unfold assign
    split
    · rename_i lt
      refine List.pairwise_cons.mpr ⟨fun b hb => ?_, h⟩
      rcases List.mem_cons.mp hb with rfl | hb
      · exact lt
      · exact lt.trans (ha b hb)
    · rename_i ge
      split
      · rename_i same
        refine List.pairwise_cons.mpr ⟨fun b hb => ?_, hm⟩
        rw [same]
        exact ha b hb
      · rename_i other
        refine List.pairwise_cons.mpr ⟨fun b hb => ?_, ih hm⟩
        rcases of_mem_assign hb with rfl | hb
        · exact lt_of_le_of_ne (not_lt.mp ge) (Ne.symm other)
        · exact ha b hb

theorem insert_eq_assign (h : find k m = none) : insert k v m = assign k v m := by
  induction m with
  | nil => rfl
  | cons a m ih =>
    have absent := find_eq_none.mp h
    have other : k ≠ a.1 := (absent a List.mem_cons_self).symm
    unfold insert assign
    rw [if_neg other, if_neg other,
      ih (find_eq_none.mpr fun e he => absent e (List.mem_cons_of_mem a he))]

theorem insert_of_find {w : V} (h : Ordered m) (hk : find k m = some w) : insert k v m = m := by
  induction m with
  | nil => cases hk
  | cons a m ih =>
    obtain ⟨ha, hm⟩ := List.pairwise_cons.mp h
    unfold insert
    rcases List.mem_cons.mp (mem_of_find hk) with rfl | mem
    · rw [if_neg (lt_irrefl k), if_pos rfl]
    · have lt : a.1 < k := ha _ mem
      rw [if_neg lt.asymm, if_neg lt.ne', ih hm (find_of_mem hm mem)]

theorem find_erase (k : K) (m : List (K × V)) (j : K) :
    find j (erase k m) = if j = k then none else find j m := by
  split
  · rename_i same
    refine find_eq_none.mpr fun e he => ?_
    rw [same]
    simpa using (List.mem_filter.mp he).2
  · rename_i other
    induction m with
    | nil => rfl
    | cons a m ih =>
      unfold erase at ih ⊢
      by_cases gone : a.1 = k
      · rw [List.filter_cons_of_neg (by simpa using gone), ih, find, gone, if_neg (Ne.symm other)]
      · rw [List.filter_cons_of_pos (by simpa using gone), find, find, ih]

theorem erase_ordered (h : Ordered m) : Ordered (erase k m) := h.sublist List.filter_sublist

theorem mem_erase {m : List (K × V)} : e ∈ erase k m ↔ e ∈ m ∧ e.1 ≠ k := by
  simp [erase]

theorem insert_last (h : ∀ e ∈ m, e.1 < k) (v : V) : insert k v m = m ++ [(k, v)] := by
  induction m with
  | nil => rfl
  | cons a m ih =>
    have lt := h a List.mem_cons_self
    unfold insert
    rw [if_neg lt.asymm, if_neg lt.ne', ih fun e he => h e (List.mem_cons_of_mem a he)]
    rfl

theorem length_insert_of_absent (h : find k m = none) (v : V) :
    (insert k v m).length = m.length + 1 := by
  induction m with
  | nil => rfl
  | cons a m ih =>
    have absent := find_eq_none.mp h
    have other : k ≠ a.1 := (absent a List.mem_cons_self).symm
    have rest := ih (find_eq_none.mpr fun e he => absent e (List.mem_cons_of_mem a he))
    unfold insert
    rw [if_neg other]
    split
    · rfl
    · rw [List.length_cons, rest, List.length_cons]

theorem length_assign_of_find {w : V} (h : Ordered m) (hk : find k m = some w) (v : V) :
    (assign k v m).length = m.length := by
  induction m with
  | nil => cases hk
  | cons a m ih =>
    obtain ⟨ha, hm⟩ := List.pairwise_cons.mp h
    unfold assign
    rcases List.mem_cons.mp (mem_of_find hk) with rfl | mem
    · rw [if_neg (lt_irrefl k), if_pos rfl]
      rfl
    · have lt : a.1 < k := ha _ mem
      rw [if_neg lt.asymm, if_neg lt.ne', List.length_cons, ih hm (find_of_mem hm mem),
        List.length_cons]

theorem assign_of_find (h : Ordered m) (hk : find k m = some v) : assign k v m = m := by
  induction m with
  | nil => cases hk
  | cons a m ih =>
    obtain ⟨ha, hm⟩ := List.pairwise_cons.mp h
    unfold assign
    rcases List.mem_cons.mp (mem_of_find hk) with rfl | mem
    · rw [if_neg (lt_irrefl k), if_pos rfl]
    · have lt : a.1 < k := ha _ mem
      rw [if_neg lt.asymm, if_neg lt.ne', ih hm (find_of_mem hm mem)]

theorem erase_of_absent (h : find k m = none) : erase k m = m :=
  List.filter_eq_self.mpr fun e he => by simpa using find_eq_none.mp h e he

theorem length_erase_of_find (h : Ordered m) (hk : find k m = some v) :
    (erase k m).length + 1 = m.length := by
  induction m with
  | nil => cases hk
  | cons a m ih =>
    obtain ⟨ha, hm⟩ := List.pairwise_cons.mp h
    unfold erase at ih ⊢
    rcases List.mem_cons.mp (mem_of_find hk) with rfl | mem
    · have rest : m.filter (fun e => e.1 ≠ k) = m := List.filter_eq_self.mpr fun e he => by
        simpa using (ha e he).ne'
      rw [List.filter_cons_of_neg (by simp), rest, List.length_cons]
    · have lt : a.1 < k := ha _ mem
      rw [List.filter_cons_of_pos (by simpa using lt.ne), List.length_cons, List.length_cons,
        ih hm (find_of_mem hm mem)]

section MapValues
variable {W : Type} {f : V → W}

def mapValues (f : V → W) (m : List (K × V)) : List (K × W) := m.map fun e => (e.1, f e.2)

omit [LinearOrder K] in
@[simp] theorem length_mapValues : (mapValues f m).length = m.length := List.length_map _

omit [LinearOrder K] in
theorem mapValues_eq_self {f : V → V} (h : ∀ e ∈ m, f e.2 = e.2) : mapValues f m = m := by
  induction m with
  | nil => rfl
  | cons e m ih =>
    obtain ⟨here, rest⟩ := List.forall_mem_cons.mp h
    show (e.1, f e.2) :: mapValues f m = _
    rw [here, ih rest]

theorem mapValues_ordered (h : Ordered m) : Ordered (mapValues f m) :=
  List.pairwise_map.mpr h

end MapValues

theorem find_isSome : (find k m).isSome ↔ k ∈ m.map (·.1) := by
  rw [Option.isSome_iff_ne_none, Ne, find_eq_none, List.mem_map]
  simp only [not_forall, not_not, exists_prop]

theorem sum_find {m : List (K × Nat)} (h : Ordered m) (keys : Finset K) (hk : ∀ e ∈ m, e.1 ∈ keys) :
    ∑ k ∈ keys, (find k m).getD 0 = (m.map (·.2)).sum := by
  induction m with
  | nil => simp [find]
  | cons a m ih =>
    obtain ⟨ha, hm⟩ := List.pairwise_cons.mp h
    have absent : find a.1 m = none := find_eq_none.mpr fun e he => (ha e he).ne'
    have split : ∀ k ∈ keys, (find k (a :: m)).getD 0 =
        (if k = a.1 then a.2 else 0) + (find k m).getD 0 := fun k _ => by
      rw [find_cons]
      by_cases same : a.1 = k
      · subst same
        simp [absent]
      · simp [same, Ne.symm same]
    rw [Finset.sum_congr rfl split, Finset.sum_add_distrib, Finset.sum_ite_eq',
      if_pos (hk a List.mem_cons_self), ih hm fun e he => hk e (List.mem_cons_of_mem a he),
      List.map_cons, List.sum_cons]

end Find

end OrderedMap
