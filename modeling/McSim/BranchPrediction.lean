import McSim.O3Core
import Mathlib.Data.Nat.Prime.Basic
import Mathlib.Algebra.IsPrimePow

/-! What a branch prediction depends on.
The history register takes in the outcome of a branch before the branch is looked up, so the outcome
is a bit of the index. It does not matter only where that bit drops out. -/

namespace McSim.BranchPredictor

variable {bp : BranchPredictor} {numEntries gpSize addr i : Nat} {taken : Bool}

/-- The direction that was predicted: a branch is missed if it is not the one taken. -/
def predicted (bp : BranchPredictor) (addr : Nat) (taken : Bool) : Bool :=
  (bp.miss addr taken).2 ^^ taken

/-- The prediction for the next branch does not know its outcome. -/
def Causal (bp : BranchPredictor) : Prop :=
  ∀ addr < 2 ^ 64, bp.predicted addr true = bp.predicted addr false

def after (numEntries gpSize : Nat) (history : List (Nat × Bool)) : BranchPredictor :=
  history.foldl (fun bp branch => (bp.miss branch.1 branch.2).1) { numEntries, gpSize }

def history (bp : BranchPredictor) (taken : Bool) : Nat :=
  if bp.gpSize = 0 then 0 else ((bp.globalHistory <<< 1) + if taken then 1 else 0) % 2 ^ 64

def index (bp : BranchPredictor) (addr : Nat) (taken : Bool) : Nat :=
  (addr ^^^ (bp.history taken <<< (64 - bp.gpSize)) % 2 ^ 64) % bp.numEntries

theorem predicted_eq (bp : BranchPredictor) (addr : Nat) (taken : Bool) :
    bp.predicted addr taken = decide (1 < bp.bimodalEntry (bp.index addr taken)) := by
  have entry : bp.predicted addr taken =
      (((1 < bp.bimodalEntry (bp.index addr taken) && !taken) ||
        (bp.bimodalEntry (bp.index addr taken) < 2 && taken)) ^^ taken) := rfl
  rw [entry]
  cases taken with
  | false => simp
  | true =>
    by_cases high : 1 < bp.bimodalEntry (bp.index addr true)
    · have low : ¬ bp.bimodalEntry (bp.index addr true) < 2 := by omega
      simp [high, low]
    · have low : bp.bimodalEntry (bp.index addr true) < 2 := by omega
      simp [high, low]

def counterAfter (currEntry : Nat) (taken : Bool) : Nat :=
  if currEntry = 0 ∧ taken = false then 0
  else if currEntry = 3 ∧ taken = true then 3
  else if taken then currEntry + 1 else currEntry - 1

theorem counterAfter_le {n : Nat} (h : n ≤ 3) : counterAfter n taken ≤ 3 := by
  unfold counterAfter
  cases taken with
  | false => grind
  | true => grind

theorem miss_bimodalEntry (bp : BranchPredictor) (addr : Nat) (taken : Bool) :
    (bp.miss addr taken).1.bimodalEntry = Function.update bp.bimodalEntry (bp.index addr taken)
      (counterAfter (bp.bimodalEntry (bp.index addr taken)) taken) := rfl

theorem miss_counter (h : ∀ i, bp.bimodalEntry i ≤ 3) :
    (bp.miss addr taken).1.bimodalEntry i ≤ 3 := by
  rw [miss_bimodalEntry, Function.update_apply]
  split
  · exact counterAfter_le (h _)
  · exact h i

theorem after_fixed (numEntries gpSize : Nat) (history : List (Nat × Bool)) :
    (after numEntries gpSize history).numEntries = numEntries ∧
      (after numEntries gpSize history).gpSize = gpSize ∧
      ∀ i, (after numEntries gpSize history).bimodalEntry i ≤ 3 := by
  induction history using List.reverseRecOn with
  | nil => exact ⟨rfl, rfl, fun _ => show 1 ≤ 3 by decide⟩
  | append_singleton history branch ih =>
    obtain ⟨entries, size, counters⟩ := ih
    unfold after at entries size counters ⊢
    rw [List.foldl_append, List.foldl_cons, List.foldl_nil]
    exact ⟨entries, size, fun _ => miss_counter counters⟩

theorem history_true (h : bp.gpSize ≠ 0) : bp.history true = bp.history false ^^^ 1 := by
  unfold history
  rw [if_neg h, if_neg h, if_pos rfl, if_neg Bool.false_ne_true, Nat.add_zero]
  have split : bp.globalHistory <<< 1 + 1 = bp.globalHistory <<< 1 ^^^ 1 := by
    refine Nat.eq_of_testBit_eq fun j => ?_
    rw [Nat.testBit_xor, Nat.shiftLeft_eq, Nat.mul_comm,
      Nat.testBit_two_pow_mul_add _ (by decide : 1 < 2 ^ 1), Nat.testBit_two_pow_mul]
    rcases Nat.eq_zero_or_pos j with rfl | pos
    · simp
    · have low : (1 : Nat).testBit j = false := Nat.testBit_lt_two_pow (Nat.one_lt_two_pow pos.ne')
      simp [low, Nat.not_lt.mpr pos, Nat.succ_le_of_lt pos]
  rw [split, Nat.xor_mod_two_pow]
  rfl

theorem word_true (h : bp.gpSize ≠ 0) : (bp.history true <<< (64 - bp.gpSize)) % 2 ^ 64 =
    (bp.history false <<< (64 - bp.gpSize)) % 2 ^ 64 ^^^ 2 ^ (64 - bp.gpSize) := by
  have bit : 2 ^ (64 - bp.gpSize) < 2 ^ 64 := Nat.pow_lt_pow_right (by decide) (by omega)
  rw [history_true h, Nat.shiftLeft_xor_distrib, Nat.xor_mod_two_pow, Nat.one_shiftLeft,
    Nat.mod_eq_of_lt bit]

theorem xor_mod_of_dvd {n k : Nat} (h : n ∣ 2 ^ k) (x : Nat) : (x ^^^ 2 ^ k) % n = x % n := by
  obtain ⟨j, le, rfl⟩ := (Nat.dvd_prime_pow Nat.prime_two).mp h
  rw [Nat.xor_mod_two_pow, Nat.mod_eq_zero_of_dvd (Nat.pow_dvd_pow 2 le), Nat.xor_zero]

theorem index_true (h : bp.gpSize = 0 ∨ bp.numEntries ∣ 2 ^ (64 - bp.gpSize)) (addr : Nat) :
    bp.index addr true = bp.index addr false := by
  by_cases zero : bp.gpSize = 0
  · unfold index history
    rw [if_pos zero, if_pos zero]
  · unfold index
    rw [word_true zero, ← Nat.xor_assoc, xor_mod_of_dvd (h.resolve_left zero)]

theorem causal_dvd (nonzero : gpSize ≠ 0)
    (h : (after numEntries gpSize [(2 ^ (64 - gpSize), true)]).Causal) :
    numEntries ∣ 2 ^ (64 - gpSize) := by
  have bit : 2 ^ (64 - gpSize) < 2 ^ 64 := Nat.pow_lt_pow_right (by decide) (by omega)
  have start : ({ numEntries, gpSize } : BranchPredictor).index (2 ^ (64 - gpSize)) true = 0 := by
    have one : ({ numEntries, gpSize } : BranchPredictor).history true = 1 := if_neg nonzero
    unfold index
    rw [one]
    dsimp only
    rw [Nat.one_shiftLeft, Nat.mod_eq_of_lt bit, Nat.xor_self, Nat.zero_mod]
  have raised : (after numEntries gpSize [(2 ^ (64 - gpSize), true)]).bimodalEntry =
      Function.update (fun _ => 1) 0 2 := by
    rw [← start]
    rfl
  generalize hbp : after numEntries gpSize [(2 ^ (64 - gpSize), true)] = bp at h raised
  have fixed := after_fixed numEntries gpSize [(2 ^ (64 - gpSize), true)]
  rw [hbp] at fixed
  obtain ⟨rfl, rfl, -⟩ := fixed
  have word := word_true nonzero
  have same := h ((bp.history true <<< (64 - bp.gpSize)) % 2 ^ 64) (Nat.mod_lt _ (by decide))
  have first : bp.index ((bp.history true <<< (64 - bp.gpSize)) % 2 ^ 64) true = 0 := by
    unfold index
    rw [Nat.xor_self, Nat.zero_mod]
  have second : bp.index ((bp.history true <<< (64 - bp.gpSize)) % 2 ^ 64) false =
      2 ^ (64 - bp.gpSize) % bp.numEntries := by
    unfold index
    rw [word, Nat.xor_comm, ← Nat.xor_assoc, Nat.xor_self, Nat.zero_xor]
  rw [predicted_eq, predicted_eq, first, second, raised, Function.update_self] at same
  refine Nat.dvd_of_mod_eq_zero ?_
  by_contra other
  rw [Function.update_of_ne other] at same
  exact absurd same (by decide)

/-- Branch prediction is causal, whatever the branches before, if there is no history or the entries
divide its lowest bit in the index; otherwise it is not. Counters always have two bits. -/
theorem causal_iff (numEntries gpSize : Nat) (_pos : 0 < numEntries) (_small : gpSize ≤ 64) :
    ((∀ history, (∀ branch ∈ history, branch.1 < 2 ^ 64) →
      (after numEntries gpSize history).Causal) ↔
      gpSize = 0 ∨ numEntries ∣ 2 ^ (64 - gpSize)) ∧
    ∀ history i, (after numEntries gpSize history).bimodalEntry i ≤ 3 := by
  refine ⟨⟨fun h => ?_, fun h history _ addr _ => ?_⟩, fun history => (after_fixed _ _ history).2.2⟩
  · refine or_iff_not_imp_left.mpr fun nonzero => causal_dvd nonzero (h _ fun branch hb => ?_)
    rw [List.mem_singleton.mp hb]
    exact Nat.pow_lt_pow_right (by decide) (by omega)
  · obtain ⟨entries, size, -⟩ := after_fixed numEntries gpSize history
    rw [predicted_eq, predicted_eq, index_true (by rwa [entries, size])]

/-- Without a history register -/
theorem causal_iff_no_history :
    (∀ history, (∀ branch ∈ history, branch.1 < 2 ^ 64) → (after 256 0 history).Causal) ∧
      ∀ history i, (after 256 0 history).bimodalEntry i ≤ 3 := by
  obtain ⟨causal, counters⟩ := causal_iff 256 0 (by decide) (by decide)
  exact ⟨causal.mpr (.inl rfl), counters⟩

/-- One branch that was taken is enough to tell the outcome of the next one. -/
theorem outcome_leaks : ¬ (after 256 60 [(16, true)]).Causal := by
  intro causal
  exact absurd (causal 48 (by decide)) (by decide)

end McSim.BranchPredictor
