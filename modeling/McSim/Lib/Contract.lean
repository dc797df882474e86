import Mathlib.Logic.Basic

/-! Contracts for computations that may fail.
`Meets allowed post x` says that `x` ends with a result that satisfies `post` or with an
error that is `allowed`. The rules push a contract through the steps of a computation. -/

namespace Contract

variable {ε α β : Type}

def Meets (allowed : ε → Prop) (post : α → Prop) : Except ε α → Prop
  | .ok a => post a
  | .error e => allowed e

variable {allowed : ε → Prop} {post : α → Prop}

@[simp] theorem meets_ok {a : α} : Meets allowed post (.ok a) ↔ post a := Iff.rfl

@[simp] theorem meets_pure {a : α} : Meets allowed post (pure a) ↔ post a := Iff.rfl

@[simp] theorem meets_error {e : ε} : Meets allowed post (.error e) ↔ allowed e := Iff.rfl

/-- The contract of a sequence is the contract of its first step, with the second as the result
that is asked for. -/
@[simp] theorem meets_bind {post : β → Prop} {x : Except ε α} {f : α → Except ε β} :
    Meets allowed post (x >>= f) ↔ Meets allowed (fun a => Meets allowed post (f a)) x := by
  cases x <;> exact Iff.rfl

theorem Meets.mono {allowed' : ε → Prop} {post' : α → Prop} {x : Except ε α}
    (h : Meets allowed post x) (hpost : ∀ a, post a → post' a)
    (hallowed : ∀ e, allowed e → allowed' e) : Meets allowed' post' x := by
  cases x with
  | ok a => exact hpost a h
  | error e => exact hallowed e h

theorem Meets.and {post' : α → Prop} {x : Except ε α} (h : Meets allowed post x)
    (h' : Meets allowed post' x) : Meets allowed (fun a => post a ∧ post' a) x := by
  cases x with
  | ok a => exact ⟨h, h'⟩
  | error e => exact h

theorem Meets.of_ok {x : Except ε α} {a : α} (h : Meets allowed post x) (hx : x = .ok a) :
    post a := by
  subst hx
  exact h

theorem Meets.of_error {x : Except ε α} {e : ε} (h : Meets allowed post x) (hx : x = .error e) :
    allowed e := by
  subst hx
  exact h

theorem Meets.of_forall {x : Except ε α} (h : ∀ a, post a) : Meets (fun _ => True) post x := by
  cases x with
  | ok a => exact h a
  | error e => trivial

theorem Meets.after {post : β → Prop} {x : Except ε α} {f : α → Except ε β}
    (h : ∀ a, Meets (fun _ => True) post (f a)) : Meets (fun _ => True) post (x >>= f) := by
  cases x with
  | ok a => exact h a
  | error e => trivial

instance [DecidablePred allowed] [DecidablePred post] : DecidablePred (Meets allowed post)
  | .ok a => inferInstanceAs (Decidable (post a))
  | .error e => inferInstanceAs (Decidable (allowed e))

theorem Meets.result {x : Except ε α} (h : Meets (fun _ => False) post x) :
    ∃ a, x = .ok a ∧ post a := by
  cases x with
  | ok a => exact ⟨a, rfl, h⟩
  | error e => exact h.elim

end Contract
