import Mathlib.Algebra.GroupWithZero.Nat
import Mathlib.Algebra.BigOperators.Group.Finset.Basic
import Mathlib.Algebra.BigOperators.Group.List.Basic
import Mathlib.Algebra.Order.BigOperators.Group.Finset
import Mathlib.Data.List.Basic

/-! Numbers that are dealt out in blocks.
The blocks of given sizes follow one another. A number lies in one block, at one place. -/

namespace Blocks

def start (sizes : List Nat) (i : Nat) : Nat := (sizes.take i).sum

def owners (sizes : List Nat) : List Nat := sizes.zipIdx.flatMap fun b => List.replicate b.1 b.2

def ranks (sizes : List Nat) : List Nat := sizes.flatMap List.range

/-- `h` is at place `r` of block `i`. -/
def Holds (sizes : List Nat) (i r h : Nat) : Prop :=
  ∃ n, sizes[i]? = some n ∧ r < n ∧ h = start sizes i + r

variable {sizes : List Nat} {n i j r q h k : Nat}

@[simp] theorem length_ranks (sizes : List Nat) : (ranks sizes).length = sizes.sum := by
  simp [ranks, List.length_flatMap]

theorem length_owners_from (sizes : List Nat) (k : Nat) :
    ((sizes.zipIdx k).flatMap fun b => List.replicate b.1 b.2).length = sizes.sum := by
  induction sizes generalizing k with
  | nil => rfl
  | cons n sizes ih =>
    rw [List.zipIdx_cons, List.flatMap_cons, List.length_append, List.length_replicate, ih,
      List.sum_cons]

@[simp] theorem length_owners (sizes : List Nat) : (owners sizes).length = sizes.sum :=
  length_owners_from sizes 0

theorem Holds.zero (hr : r < n) : Holds (n :: sizes) 0 r r := ⟨n, rfl, hr, (Nat.zero_add r).symm⟩

theorem holds_succ : Holds (n :: sizes) (i + 1) r h ↔ n ≤ h ∧ Holds sizes i r (h - n) := by
  unfold Holds start
  simp only [List.getElem?_cons_succ, List.take_succ_cons, List.sum_cons]
  constructor
  · rintro ⟨m, hm, hr, rfl⟩
    exact ⟨by omega, m, hm, hr, by omega⟩
  · rintro ⟨hn, m, hm, hr, hh⟩
    exact ⟨m, hm, hr, by omega⟩

theorem holds_from (sizes : List Nat) (k : Nat) : (∃ i, j = i + k ∧ Holds sizes i r h) ↔
    ((sizes.zipIdx k).flatMap fun b => List.replicate b.1 b.2)[h]? = some j ∧
      (ranks sizes)[h]? = some r := by
  induction sizes generalizing k h with
  | nil =>
    constructor
    · rintro ⟨i, -, n, hn, -⟩
      cases hn
    · rintro ⟨hj, -⟩
      cases hj
  | cons n sizes ih =>
    have tail := ih (h := h - n) (k + 1)
    unfold ranks at tail ⊢
    rw [List.zipIdx_cons, List.flatMap_cons, List.flatMap_cons]
    by_cases hn : h < n
    · rw [List.getElem?_append_left (by simpa using hn),
        List.getElem?_append_left (by simpa using hn),
        List.getElem?_replicate, if_pos hn, List.getElem?_range hn]
      constructor
      · rintro ⟨i, rfl, held⟩
        cases i with
        | zero =>
          obtain ⟨m, -, -, rfl⟩ := held
          simp [start]
        | succ i => exact absurd (holds_succ.mp held).1 (Nat.not_le.mpr hn)
      · rintro ⟨hj, hr⟩
        cases hj
        cases hr
        exact ⟨0, (Nat.zero_add k).symm, .zero hn⟩
    · rw [List.getElem?_append_right (by simpa using hn),
        List.getElem?_append_right (by simpa using hn),
        List.length_replicate, List.length_range, ← tail]
      constructor
      · rintro ⟨i, rfl, held⟩
        cases i with
        | zero =>
          obtain ⟨m, hm, hr, rfl⟩ := held
          cases hm
          exact absurd ((Nat.zero_add r).symm ▸ hr) hn
        | succ i => exact ⟨i, Nat.succ_add_eq_add_succ i k, (holds_succ.mp held).2⟩
      · rintro ⟨i, rfl, held⟩
        exact ⟨i + 1, (Nat.succ_add_eq_add_succ i k).symm, holds_succ.mpr ⟨Nat.not_lt.mp hn, held⟩⟩

theorem holds_iff : Holds sizes i r h ↔ (owners sizes)[h]? = some i ∧
    (ranks sizes)[h]? = some r := by
  unfold owners
  rw [← holds_from sizes 0]
  simp

theorem exists_holds (lt : h < sizes.sum) : ∃ i r, Holds sizes i r h := by
  have owner : h < (owners sizes).length := by rwa [length_owners]
  have rank : h < (ranks sizes).length := by rwa [length_ranks]
  exact ⟨_, _, holds_iff.mpr ⟨List.getElem?_eq_getElem owner, List.getElem?_eq_getElem rank⟩⟩

end Blocks
