import McSim.Lib.Multimap
import Mathlib.Algebra.GroupWithZero.Nat
import Mathlib.Algebra.BigOperators.Group.Finset.Basic
import Mathlib.Algebra.BigOperators.Group.List.Basic
import Mathlib.Algebra.Order.BigOperators.Group.Finset

/-! What lists, queues and maps weigh, when each element in them has a weight. -/

namespace Weighing

variable {α K : Type}

def weigh (f : α → Nat) (l : List α) : Nat := (l.map f).sum

variable {f g : α → Nat}

@[simp] theorem weigh_nil : weigh f [] = 0 := rfl

@[simp] theorem weigh_cons (a : α) (l : List α) : weigh f (a :: l) = f a + weigh f l := by
  simp [weigh]

@[simp] theorem weigh_append (a b : List α) : weigh f (a ++ b) = weigh f a + weigh f b := by
  simp [weigh]

theorem weigh_perm {a b : List α} (h : a.Perm b) : weigh f a = weigh f b := (h.map f).sum_nat

theorem weigh_mono (h : ∀ a, f a ≤ g a) (l : List α) : weigh f l ≤ weigh g l := by
  induction l with
  | nil => exact le_rfl
  | cons a l ih => simpa using Nat.add_le_add (h a) ih

theorem weigh_eq_zero {l : List α} (h : ∀ a ∈ l, f a = 0) : weigh f l = 0 := by
  induction l with
  | nil => rfl
  | cons a l ih =>
    rw [weigh_cons, h a List.mem_cons_self, ih fun b hb => h b (List.mem_cons_of_mem a hb)]

section Events
variable [LinearOrder K]

theorem weigh_insert (k : K) (a : α) (m : List (K × α)) :
    weigh f ((Multimap.insert k a m).map (·.2)) = f a + weigh f (m.map (·.2)) := by
  rw [weigh_perm ((Multimap.insert_perm k a m).map _), List.map_cons, weigh_cons]

theorem weigh_front (k : K) (m : List (K × α)) :
    weigh f ((Multimap.front k m).map (·.2)) + weigh f ((m.dropWhile fun e => e.1 = k).map (·.2)) =
      weigh f (m.map (·.2)) := by
  rw [← weigh_append, ← List.map_append, Multimap.front, List.takeWhile_append_dropWhile]

theorem weigh_front_erase (k : K) (m : List (K × α)) :
    weigh f ((Multimap.front k m).map (·.2)) + weigh f ((Multimap.erase k m).map (·.2)) ≤
      weigh f (m.map (·.2)) := by
  induction m with
  | nil => exact le_rfl
  | cons e m ih =>
    by_cases h : e.1 = k
    · simp only [Multimap.front, Multimap.erase, h, decide_true, List.takeWhile_cons_of_pos,
        List.map_cons, weigh_cons, not_true_eq_false, decide_false, Bool.false_eq_true,
        not_false_eq_true, List.filter_cons_of_neg] at ih ⊢
      omega
    · have less : weigh f ((Multimap.erase k m).map (·.2)) ≤ weigh f (m.map (·.2)) := by omega
      simpa [Multimap.front, Multimap.erase, h] using less

end Events

theorem sum_update {ι : Type} [DecidableEq ι] {β : ι → Type} {s : Finset ι} (x : ∀ i, β i)
    (w : ∀ i, β i → Nat) {i : ι} (h : i ∈ s) (v : β i) :
    ∑ j ∈ s, w j (Function.update x i v j) + w i (x i) = ∑ j ∈ s, w j (x j) + w i v := by
  rw [← Finset.add_sum_erase _ _ h, ← Finset.add_sum_erase _ (fun j => w j (x j)) h]
  have others : ∑ j ∈ s.erase i, w j (Function.update x i v j) = ∑ j ∈ s.erase i, w j (x j) :=
    Finset.sum_congr rfl fun j hj => by rw [Function.update_of_ne (Finset.ne_of_mem_erase hj)]
  rw [others, Function.update_self]
  omega

theorem weigh_deal {n : Nat} {slot : α → Nat} (h : ∀ a, slot a < n) (due : List α)
    (qs : Nat → List α) :
    ∑ i ∈ Finset.range n, weigh f (due.foldl (fun qs a =>
        Function.update qs (slot a) (qs (slot a) ++ [a])) qs i) =
      ∑ i ∈ Finset.range n, weigh f (qs i) + weigh f due := by
  induction due generalizing qs with
  | nil => rfl
  | cons a due ih =>
    have one := sum_update qs (fun _ => weigh f) (Finset.mem_range.mpr (h a)) (qs (slot a) ++ [a])
    rw [List.foldl_cons, ih]
    simp only [weigh_append, weigh_cons, weigh_nil] at one ⊢
    omega

theorem weigh_heads (n : Nat) (qs : Nat → List α) :
    weigh f ((List.range n).filterMap fun i => (qs i).head?) +
        ∑ i ∈ Finset.range n, weigh f (qs i).tail =
      ∑ i ∈ Finset.range n, weigh f (qs i) := by
  induction n with
  | zero => rfl
  | succ n ih =>
    rw [List.range_succ, List.filterMap_append, weigh_append, Finset.sum_range_succ,
      Finset.sum_range_succ, ← ih]
    cases hq : qs n with
    | nil => simp [hq]
    | cons a rest =>
      simp [hq]
      omega

end Weighing
