import Mathlib.Data.List.Basic
import Mathlib.Tactic.Common

/-! Tables in which the oldest entry makes room for a new one.
A table of fixed length holds the end of a history; what came before has retired. -/

/-- The table after a history was written to it, where there was `blank` before. The next value goes
to the slot `oldest`. -/
structure Rotation {α : Type} (blank : α) (cap : Nat) (slots : List α) (oldest : Nat)
    (history : List α) :
    Prop where
  length : slots.length = cap
  oldest : oldest = history.length % cap
  recent : ∀ k < history.length, history.length ≤ k + cap → slots[k % cap]? = history[k]?
  unused : ∀ k < cap, history.length ≤ k → slots[k]? = some blank

namespace Rotation

variable {α : Type} {blank a : α} {cap oldest : Nat} {slots history : List α}

theorem init (blank : α) (cap : Nat) : Rotation blank cap (List.replicate cap blank) 0 [] where
  length := List.length_replicate
  oldest := (Nat.zero_mod cap).symm
  recent _ h := absurd h (Nat.not_lt_zero _)
  unused k hk _ := by rw [List.getElem?_replicate, if_pos hk]

theorem oldest_lt (h : Rotation blank cap slots oldest history) (pos : 0 < cap) :
    oldest < slots.length := by
  rw [h.length, h.oldest]
  exact Nat.mod_lt _ pos

theorem slot_ne {k n : Nat} (hk : k < n) (near : n < k + cap) : k % cap ≠ n % cap := by
  intro same
  have dvd : cap ∣ n - k := Nat.dvd_of_mod_eq_zero (Nat.sub_mod_eq_zero_of_mod_eq same.symm)
  have := Nat.le_of_dvd (by omega) dvd
  omega

theorem write (h : Rotation blank cap slots oldest history) (pos : 0 < cap) (a : α) :
    Rotation blank cap (slots.set oldest a) ((oldest + 1) % cap) (history ++ [a]) := by
  have inside := h.oldest_lt pos
  refine ⟨?_, ?_, fun k hk near => ?_, fun k hk unwritten => ?_⟩
  · rw [List.length_set, h.length]
  · rw [h.oldest, List.length_append, List.length_singleton, Nat.mod_add_mod]
  · rw [List.length_append, List.length_singleton] at hk near
    obtain before | rfl := Nat.lt_succ_iff_lt_or_eq.mp hk
    · have other : oldest ≠ k % cap := by
        rw [h.oldest]
        exact (slot_ne before (by omega)).symm
      rw [List.getElem?_set_ne other, List.getElem?_append_left before,
        h.recent k before (by omega)]
    · rw [← h.oldest, List.getElem?_set_self inside, List.getElem?_concat_length]
  · rw [List.length_append, List.length_singleton] at unwritten
    have other : oldest ≠ k := by
      rw [h.oldest, Nat.mod_eq_of_lt (by omega)]
      omega
    rw [List.getElem?_set_ne other]
    exact h.unused k hk (by omega)

theorem not_recent (h : Rotation blank cap slots oldest history) (fresh : a ∉ slots) {k : Nat}
    (hk : history[k]? = some a) : k + cap < history.length := by
  by_contra near
  have before := (List.getElem?_eq_some_iff.mp hk).1
  exact fresh (List.mem_of_getElem? ((h.recent k before (by omega)).trans hk))

/-- The values that have made room -/
def retired (cap : Nat) (history : List α) : List α := history.take (history.length - cap)

theorem retired_write (h : Rotation blank cap slots oldest history) (pos : 0 < cap) (a : α) :
    ∃ old, slots[oldest]? = some old ∧
      (history.length < cap ∧ old = blank ∧ retired cap (history ++ [a]) = retired cap history ∨
        cap ≤ history.length ∧ retired cap (history ++ [a]) = retired cap history ++ [old]) := by
  unfold retired
  rw [List.length_append, List.length_singleton]
  by_cases full : cap ≤ history.length
  · have before : history.length - cap < history.length := by omega
    have slot : oldest = (history.length - cap) % cap := by
      rw [h.oldest]
      exact (Nat.mod_eq_sub_mod full)
    refine ⟨history[history.length - cap], ?_, .inr ⟨full, ?_⟩⟩
    · rw [slot, h.recent _ before (by omega), List.getElem?_eq_getElem before]
    · have next : history.length + 1 - cap = history.length - cap + 1 := by omega
      rw [next, List.take_append_of_le_length (by omega), List.take_succ_eq_append_getElem before]
  · have slot : oldest = history.length := by rw [h.oldest, Nat.mod_eq_of_lt (by omega)]
    refine ⟨blank, ?_, .inl ⟨by omega, rfl, ?_⟩⟩
    · rw [slot]
      exact h.unused _ (by omega) (Nat.le_refl _)
    · rw [Nat.sub_eq_zero_of_le (by omega), Nat.sub_eq_zero_of_le (by omega), List.take_zero,
        List.take_zero]

/-- Within `cap` writes only values in `free` come twice. -/
def Apart (free : α → Prop) (cap : Nat) (history : List α) : Prop :=
  ∀ i j a, i < j → j ≤ i + cap → history[i]? = some a → history[j]? = some a → free a

theorem Apart.write {free : α → Prop} (apart : Apart free cap history)
    (h : Rotation blank cap slots oldest history) (fresh : a ∉ slots ∨ free a) :
    Apart free cap (history ++ [a]) := by
  intro i j b lt near hi hj
  have inside := (List.getElem?_eq_some_iff.mp hj).1
  rw [List.length_append, List.length_singleton] at inside
  rw [List.getElem?_append_left (by omega)] at hi
  obtain before | rfl := Nat.lt_succ_iff_lt_or_eq.mp inside
  · rw [List.getElem?_append_left before] at hj
    exact apart i j b lt near hi hj
  · rw [List.getElem?_concat_length] at hj
    cases hj
    refine fresh.resolve_left fun new => ?_
    have := h.not_recent new hi
    omega

end Rotation
