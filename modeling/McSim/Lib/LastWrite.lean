import Mathlib.Data.List.Induction

/-! The last write in a history.
An event leaves a cell alone, clears it, or writes a value to it; what the cell holds after a
history is what the last event that did not leave it alone did. -/

namespace LastWrite

variable {E V : Type}

/-- `effect e` is `none` for an event that leaves the cell alone, and `some none` for one that
clears it. -/
def value (effect : E → Option (Option V)) (events : List E) : Option V :=
  events.foldl (fun now e => (effect e).getD now) none

variable {effect : E → Option (Option V)} {events : List E} {e : E} {v : V}

@[simp] theorem value_nil : value effect [] = none := rfl

theorem value_concat : value effect (events ++ [e]) = (effect e).getD (value effect events) := by
  rw [value, List.foldl_append]
  rfl

theorem value_skip (h : effect e = none) : value effect (events ++ [e]) = value effect events := by
  rw [value_concat, h]
  rfl

theorem value_append {after : List E} (h : ∀ a ∈ after, effect a = none) :
    value effect (events ++ after) = value effect events := by
  induction after using List.reverseRecOn with
  | nil => rw [List.append_nil]
  | append_singleton after a ih =>
    obtain ⟨rest, last⟩ := List.forall_mem_append.mp h
    rw [← List.append_assoc, value_skip (last a (List.mem_singleton_self a)), ih rest]

theorem value_eq_some : value effect events = some v ↔
    ∃ before e after, events = before ++ e :: after ∧ effect e = some (some v) ∧
      ∀ a ∈ after, effect a = none := by
  constructor
  · induction events using List.reverseRecOn with
    | nil => exact fun none => absurd none.symm (Option.some_ne_none v)
    | append_singleton events e ih =>
      intro last
      rw [value_concat] at last
      cases touched : effect e with
      | none =>
        rw [touched] at last
        obtain ⟨before, e', after, rfl, wrote, quiet⟩ := ih last
        refine ⟨before, e', after ++ [e], by simp, wrote, ?_⟩
        exact List.forall_mem_append.mpr ⟨quiet, List.forall_mem_singleton.mpr touched⟩
      | some w =>
        rw [touched] at last
        obtain rfl : w = some v := last
        exact ⟨events, e, [], rfl, touched, List.forall_mem_nil _⟩
  · rintro ⟨before, e, after, rfl, wrote, quiet⟩
    rw [List.append_cons, value_append quiet, value_concat, wrote]
    rfl

end LastWrite
