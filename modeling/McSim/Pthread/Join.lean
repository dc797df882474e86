import McSim.Pthread.Sim
import Mathlib.Algebra.GroupWithZero.Nat
import Mathlib.Logic.Function.Basic

/-! Joining threads.
A thread that ends and the thread that joins it come in either order. The value travels through the
joiner's record if the joiner comes first, and through the joinee's if it comes second. -/

namespace McSim.Pthread

namespace PthreadJoinManager

/-- `PthreadJoinee`; `joiner` and `retval` are `none` until they are written. -/
structure Joinee where
  done : Bool := false
  joined : Bool := false
  joiner : Option Nat := none
  retval : Option Nat := none
deriving DecidableEq, Repr

structure Joiner where
  joinee : Nat
  retvalptr : Nat
deriving DecidableEq, Repr

end PthreadJoinManager

/-- `PthreadJoinManager`, with the cells that the pointers of its callers name -/
structure PthreadJoinManager where
  joinables : Nat → Option PthreadJoinManager.Joinee := fun _ => none
  joinings : Nat → Option PthreadJoinManager.Joiner := fun _ => none
  memory : Nat → Nat

namespace PthreadJoinManager

def setJoinee (s : PthreadJoinManager) (t : Nat) (x : Option Joinee) : PthreadJoinManager :=
  { s with joinables := Function.update s.joinables t x }

def setJoining (s : PthreadJoinManager) (t : Nat) (y : Option Joiner) : PthreadJoinManager :=
  { s with joinings := Function.update s.joinings t y }

/-- `if (retvalptr != NULL) *retvalptr = retval` -/
def store (s : PthreadJoinManager) (retvalptr retval : Nat) : PthreadJoinManager :=
  if retvalptr ≠ 0 then { s with memory := Function.update s.memory retvalptr retval } else s

def addThread (s : PthreadJoinManager) (t : Nat) (joinable : Bool) :
    Except Stop PthreadJoinManager :=
  if joinable then
    if (s.joinables t).isSome then .error .assertion else return s.setJoinee t (some {})
  else return s

/-- `PthreadJoinManager::KillThread`, with the thread that goes on -/
def killThread (s : PthreadJoinManager) (t retval : Nat) :
    Except Stop (PthreadJoinManager × Option Nat) :=
  match s.joinables t with
  | none => return (s, none)
  | some x =>
    if x.joined then
      match x.joiner with
      | none => .error .undefined
      | some joiner =>
        match s.joinings joiner with
        | none => .error .assertion
        | some y =>
          if y.joinee ≠ t then .error .assertion
          else
            return (((s.store y.retvalptr retval).setJoining joiner none).setJoinee t none,
              some joiner)
    else return (s.setJoinee t (some { x with retval := some retval, done := true }), none)

def detachThread (s : PthreadJoinManager) (t : Nat) : PthreadJoinManager × Nat :=
  match s.joinables t with
  | none => (s, einval)
  | some x => (if x.joined then s else s.setJoinee t none, 0)

/-- `PthreadJoinManager::JoinThreads`, and whether the joiner is blocked -/
def joinThreads (s : PthreadJoinManager) (joiner joinee retvalptr : Nat) :
    Except Stop (PthreadJoinManager × Bool) :=
  if joiner = joinee then .error .assertion
  else
    match s.joinables joinee with
    | none => .error .assertion
    | some x =>
      if x.joined then .error .assertion
      else if x.done then
        match x.retval with
        | none =>
          if retvalptr ≠ 0 then .error .undefined else return (s.setJoinee joinee none, false)
        | some retval => return ((s.store retvalptr retval).setJoinee joinee none, false)
      else if (s.joinings joiner).isSome then .error .assertion
      else
        return ((s.setJoinee joinee
          (some { x with joined := true, joiner := some joiner })).setJoining
          joiner (some ⟨joinee, retvalptr⟩), true)

end PthreadJoinManager

inductive JoinCall
  | addThread (t : Nat) (joinable : Bool)
  | killThread (t retval : Nat)
  | detachThread (t : Nat)
  | joinThreads (joiner joinee retvalptr : Nat)
deriving DecidableEq, Repr

def JoinCall.threads : JoinCall → List Nat
  | addThread t _ | killThread t _ | detachThread t => [t]
  | joinThreads joiner joinee _ => [joiner, joinee]

namespace PthreadJoinManager

def call (s : PthreadJoinManager) : JoinCall → Except Stop PthreadJoinManager
  | .addThread t joinable => s.addThread t joinable
  | .killThread t retval => (s.killThread t retval).map Prod.fst
  | .detachThread t => return (s.detachThread t).1
  | .joinThreads joiner joinee retvalptr => (s.joinThreads joiner joinee retvalptr).map Prod.fst

def calls (s : PthreadJoinManager) (cs : List JoinCall) : Except Stop PthreadJoinManager :=
  cs.foldlM call s

variable {s s' : PthreadJoinManager} {t j e p v : Nat} {x : Joinee} {c : JoinCall}
    {cs : List JoinCall}

section Records
variable {x' : Option Joinee} {y : Option Joiner}

@[simp] theorem setJoinee_joinings : (s.setJoinee t x').joinings = s.joinings := rfl
@[simp] theorem setJoinee_memory : (s.setJoinee t x').memory = s.memory := rfl
@[simp] theorem setJoinee_self : (s.setJoinee t x').joinables t = x' := by
  simp only [setJoinee, Function.update_self]

theorem setJoinee_of_ne (h : e ≠ t) : (s.setJoinee t x').joinables e = s.joinables e := by
  simp only [setJoinee, Function.update_of_ne h]

@[simp] theorem setJoining_joinables : (s.setJoining t y).joinables = s.joinables := rfl
@[simp] theorem setJoining_memory : (s.setJoining t y).memory = s.memory := rfl
@[simp] theorem setJoining_self : (s.setJoining t y).joinings t = y := by
  simp only [setJoining, Function.update_self]

theorem setJoining_of_ne (h : e ≠ t) : (s.setJoining t y).joinings e = s.joinings e := by
  simp only [setJoining, Function.update_of_ne h]

@[simp] theorem store_joinables : (s.store p v).joinables = s.joinables := by
  unfold store
  split <;> rfl

@[simp] theorem store_joinings : (s.store p v).joinings = s.joinings := by
  unfold store
  split <;> rfl

theorem store_self (h : p ≠ 0) : (s.store p v).memory p = v := by
  unfold store
  rw [if_pos h]
  simp only [Function.update_self]

theorem setJoinee_comm {x'' : Option Joinee} (h : t ≠ e) :
    (s.setJoinee t x').setJoinee e x'' = (s.setJoinee e x'').setJoinee t x' := by
  simp only [setJoinee, Function.update_comm h]

theorem setJoining_comm {y' : Option Joiner} (h : t ≠ j) :
    (s.setJoining t y).setJoining j y' = (s.setJoining j y').setJoining t y := by
  simp only [setJoining, Function.update_comm h]

theorem setJoinee_setJoining :
    (s.setJoinee t x').setJoining j y = (s.setJoining j y).setJoinee t x' := rfl

theorem store_setJoinee : (s.setJoinee t x').store p v = (s.store p v).setJoinee t x' := by
  unfold store
  split <;> rfl

theorem store_setJoining : (s.setJoining j y).store p v = (s.store p v).setJoining j y := by
  unfold store
  split <;> rfl

theorem setJoinee_eq_self (h : s.joinables t = x') : s.setJoinee t x' = s := by
  rw [setJoinee, ← h, Function.update_eq_self]

theorem setJoining_eq_self (h : s.joinings t = y) : s.setJoining t y = s := by
  rw [setJoining, ← h, Function.update_eq_self]

theorem setJoinee_setJoinee {x'' : Option Joinee} :
    (s.setJoinee t x'').setJoinee t x' = s.setJoinee t x' := by
  simp only [setJoinee, Function.update_idem]

theorem setJoining_setJoining {y' : Option Joiner} :
    (s.setJoining t y').setJoining t y = s.setJoining t y := by
  simp only [setJoining, Function.update_idem]

end Records

def Joinee.waiter (x : Joinee) : Option Nat := if x.joined then x.joiner else none

def joineeOf (s : PthreadJoinManager) (j : Nat) : Option Nat := (s.joinings j).map Joiner.joinee

def joinerOf (s : PthreadJoinManager) (e : Nat) : Option Nat := (s.joinables e).bind Joinee.waiter

structure Linked (s : PthreadJoinManager) : Prop where
  names : ∀ j e, s.joineeOf j = some e ↔ s.joinerOf e = some j
  written : ∀ e x, s.joinables e = some x → x.joined = true → x.joiner.isSome = true
  returned : ∀ e x, s.joinables e = some x → x.done = true → x.retval.isSome = true

theorem joineeOf_eq_some : s.joineeOf j = some e ↔ ∃ y, s.joinings j = some y ∧ y.joinee = e :=
  Option.map_eq_some_iff

theorem joinerOf_eq_some :
    s.joinerOf e = some j ↔ ∃ x, s.joinables e = some x ∧ x.joined = true ∧ x.joiner = some j := by
  rw [joinerOf, Option.bind_eq_some_iff]
  refine exists_congr fun x => and_congr_right fun _ => ?_
  unfold Joinee.waiter
  split
  · rename_i joined
    simp [joined]
  · rename_i alone
    simp [alone]

section Linked
variable {x' : Option Joinee} {y : Option Joiner}

@[simp] theorem joineeOf_setJoinee : (s.setJoinee t x').joineeOf j = s.joineeOf j := rfl
@[simp] theorem joinerOf_setJoining : (s.setJoining t y).joinerOf e = s.joinerOf e := rfl
@[simp] theorem joineeOf_store : (s.store p v).joineeOf j = s.joineeOf j := by simp [joineeOf]
@[simp] theorem joinerOf_store : (s.store p v).joinerOf e = s.joinerOf e := by simp [joinerOf]
@[simp] theorem joinerOf_setJoinee_self :
    (s.setJoinee t x').joinerOf t = x'.bind Joinee.waiter := by
  simp [joinerOf]

@[simp] theorem joineeOf_setJoining_self : (s.setJoining t y).joineeOf t = y.map Joiner.joinee := by
  simp [joineeOf]

theorem joinerOf_setJoinee_of_ne (h : e ≠ t) : (s.setJoinee t x').joinerOf e = s.joinerOf e := by
  simp [joinerOf, setJoinee_of_ne h]

theorem joineeOf_setJoining_of_ne (h : j ≠ t) : (s.setJoining t y).joineeOf j = s.joineeOf j := by
  simp [joineeOf, setJoining_of_ne h]

theorem Linked.setJoinee (h : Linked s) (before : s.joinerOf t = none)
    (after : x'.bind Joinee.waiter = none)
    (written : ∀ x, x' = some x → x.joined = true → x.joiner.isSome = true)
    (returned : ∀ x, x' = some x → x.done = true → x.retval.isSome = true) :
    Linked (s.setJoinee t x') where
  names j e := by
    by_cases here : e = t
    · subst here
      rw [joineeOf_setJoinee, joinerOf_setJoinee_self, h.names, before, after]
    · rw [joineeOf_setJoinee, joinerOf_setJoinee_of_ne here, h.names]
  written e x hx joined := by
    by_cases here : e = t
    · subst here
      rw [setJoinee_self] at hx
      exact written x hx joined
    · rw [setJoinee_of_ne here] at hx
      exact h.written e x hx joined
  returned e x hx done := by
    by_cases here : e = t
    · subst here
      rw [setJoinee_self] at hx
      exact returned x hx done
    · rw [setJoinee_of_ne here] at hx
      exact h.returned e x hx done

theorem Linked.erase (h : Linked s) (before : s.joinerOf t = none) : Linked (s.setJoinee t none) :=
  h.setJoinee before rfl (fun _ gone => absurd gone.symm (Option.some_ne_none _))
    (fun _ gone => absurd gone.symm (Option.some_ne_none _))

theorem Linked.store (h : Linked s) : Linked (s.store p v) where
  names j e := by rw [joineeOf_store, joinerOf_store, h.names]
  written e x hx := h.written e x (by rwa [store_joinables] at hx)
  returned e x hx := h.returned e x (by rwa [store_joinables] at hx)

theorem Linked.join (h : Linked s) (free : s.joinerOf e = none) (idle : s.joineeOf j = none)
    (running : x.done = false) :
    Linked ((s.setJoinee e (some { x with joined := true, joiner := some j })).setJoining j
      (some ⟨e, p⟩)) where
  names j' e' := by
    rw [joinerOf_setJoining]
    by_cases hj : j' = j <;> by_cases he : e' = e
    · subst hj he
      rw [joineeOf_setJoining_self, joinerOf_setJoinee_self]
      exact iff_of_true rfl rfl
    · subst hj
      rw [joineeOf_setJoining_self, joinerOf_setJoinee_of_ne he, ← h.names, idle]
      exact iff_of_false (fun same => he (Option.some.inj same).symm) (Option.some_ne_none _).symm
    · subst he
      rw [joineeOf_setJoining_of_ne hj, joineeOf_setJoinee, joinerOf_setJoinee_self, h.names, free]
      exact iff_of_false (Option.some_ne_none _).symm (fun same => hj (Option.some.inj same).symm)
    · rw [joineeOf_setJoining_of_ne hj, joineeOf_setJoinee, joinerOf_setJoinee_of_ne he, h.names]
  written e' x' hx joined := by
    rw [setJoining_joinables] at hx
    by_cases he : e' = e
    · subst he
      rw [setJoinee_self] at hx
      obtain rfl := Option.some.inj hx
      rfl
    · rw [setJoinee_of_ne he] at hx
      exact h.written e' x' hx joined
  returned e' x' hx done := by
    rw [setJoining_joinables] at hx
    by_cases he : e' = e
    · subst he
      rw [setJoinee_self] at hx
      obtain rfl := Option.some.inj hx
      rw [running] at done
      exact Bool.noConfusion done
    · rw [setJoinee_of_ne he] at hx
      exact h.returned e' x' hx done

theorem Linked.part (h : Linked s) (waits : s.joineeOf j = some e) :
    Linked ((s.setJoining j none).setJoinee e none) where
  names j' e' := by
    have joiner : s.joinerOf e = some j := (h.names j e).mp waits
    rw [joineeOf_setJoinee]
    by_cases hj : j' = j <;> by_cases he : e' = e
    · subst hj he
      rw [joineeOf_setJoining_self, joinerOf_setJoinee_self]
      exact iff_of_false (Option.some_ne_none _).symm (Option.some_ne_none _).symm
    · subst hj
      rw [joineeOf_setJoining_self, joinerOf_setJoinee_of_ne he, joinerOf_setJoining,
        ← h.names, waits]
      exact iff_of_false (Option.some_ne_none _).symm (fun same => he (Option.some.inj same).symm)
    · subst he
      rw [joineeOf_setJoining_of_ne hj, joinerOf_setJoinee_self, h.names, joiner]
      exact iff_of_false (fun same => hj (Option.some.inj same).symm) (Option.some_ne_none _).symm
    · rw [joineeOf_setJoining_of_ne hj, joinerOf_setJoinee_of_ne he, joinerOf_setJoining, h.names]
  written e' x' hx joined := by
    by_cases he : e' = e
    · subst he
      rw [setJoinee_self] at hx
      cases hx
    · rw [setJoinee_of_ne he] at hx
      exact h.written e' x' hx joined
  returned e' x' hx done := by
    by_cases he : e' = e
    · subst he
      rw [setJoinee_self] at hx
      cases hx
    · rw [setJoinee_of_ne he] at hx
      exact h.returned e' x' hx done

end Linked

theorem joinerOf_eq_none_of (hx : s.joinables e = some x) (alone : x.joined = false) :
    s.joinerOf e = none := by
  simp [joinerOf, hx, Joinee.waiter, alone]

theorem killThread_kept (hx : s.joinables e = some x) (alone : x.joined = false) :
    s.killThread e v = .ok (s.setJoinee e (some { x with retval := some v, done := true }),
      none) := by
  simp only [killThread, hx, alone, Bool.false_eq_true, if_false]
  rfl

theorem killThread_handed {y : Joiner} (hx : s.joinables e = some x) (joined : x.joined = true)
    (joiner : x.joiner = some j) (hy : s.joinings j = some y) (names : y.joinee = e) :
    s.killThread e v =
      .ok (((s.store y.retvalptr v).setJoining j none).setJoinee e none, some j) := by
  simp only [killThread, hx, joined, joiner, hy, names, ne_eq, not_true_eq_false, if_true, if_false]
  rfl

theorem joinThreads_waits (ne : j ≠ e) (hx : s.joinables e = some x) (alone : x.joined = false)
    (running : x.done = false) (idle : s.joinings j = none) :
    s.joinThreads j e p =
      .ok ((s.setJoinee e (some { x with joined := true, joiner := some j })).setJoining j
        (some ⟨e, p⟩), true) := by
  simp only [joinThreads, hx, alone, running, idle]
  rw [if_neg ne]
  rfl

theorem joinThreads_collects (ne : j ≠ e) (hx : s.joinables e = some x) (alone : x.joined = false)
    (done : x.done = true) (retval : x.retval = some v) :
    s.joinThreads j e p = .ok ((s.store p v).setJoinee e none, false) := by
  simp only [joinThreads, hx, alone, done, retval]
  rw [if_neg ne]
  rfl

theorem Linked.killThread_cases (h : Linked s) (hx : s.joinables e = some x) (v : Nat) :
    (∃ j y, s.joinings j = some y ∧ y.joinee = e ∧ s.killThread e v =
        .ok (((s.store y.retvalptr v).setJoining j none).setJoinee e none, some j)) ∨
      x.joined = false ∧ s.killThread e v =
        .ok (s.setJoinee e (some { x with retval := some v, done := true }), none) := by
  by_cases joined : x.joined = true
  · obtain ⟨j, joiner⟩ := Option.isSome_iff_exists.mp (h.written e x hx joined)
    obtain ⟨y, hy, names⟩ := joineeOf_eq_some.mp
      ((h.names j e).mpr (joinerOf_eq_some.mpr ⟨x, hx, joined, joiner⟩))
    exact .inl ⟨j, y, hy, names, killThread_handed hx joined joiner hy names⟩
  · have alone : x.joined = false := Bool.eq_false_iff.mpr joined
    exact .inr ⟨alone, killThread_kept hx alone⟩

theorem Linked.joinThreads_cases {r : PthreadJoinManager × Bool} (h : Linked s)
    (step : s.joinThreads j e p = .ok r) :
    j ≠ e ∧ ∃ x, s.joinables e = some x ∧ x.joined = false ∧
      ((∃ v, x.done = true ∧ x.retval = some v ∧ r = ((s.store p v).setJoinee e none, false)) ∨
        x.done = false ∧ s.joinings j = none ∧
          r = ((s.setJoinee e (some { x with joined := true, joiner := some j })).setJoining j
            (some ⟨e, p⟩), true)) := by
  have ne : j ≠ e := by
    intro same
    rw [joinThreads, if_pos same] at step
    cases step
  cases hx : s.joinables e with
  | none =>
    simp only [joinThreads, hx, if_neg ne] at step
    cases step
  | some x =>
    by_cases joined : x.joined = true
    · simp only [joinThreads, hx, if_neg ne, joined, if_true] at step
      cases step
    have alone : x.joined = false := Bool.eq_false_iff.mpr joined
    refine ⟨ne, x, rfl, alone, ?_⟩
    by_cases done : x.done = true
    · obtain ⟨v, retval⟩ := Option.isSome_iff_exists.mp (h.returned e x hx done)
      rw [joinThreads_collects ne hx alone done retval] at step
      exact .inl ⟨v, done, retval, (Except.ok.inj step).symm⟩
    · have running : x.done = false := Bool.eq_false_iff.mpr done
      cases hj : s.joinings j with
      | none =>
        rw [joinThreads_waits ne hx alone running hj] at step
        exact .inr ⟨running, rfl, (Except.ok.inj step).symm⟩
      | some y =>
        simp only [joinThreads, hx, if_neg ne, alone, running, hj] at step
        cases step

theorem addThread_cases {joinable : Bool} (step : s.addThread t joinable = .ok s') :
    joinable = false ∧ s' = s ∨
      joinable = true ∧ s.joinables t = none ∧ s' = s.setJoinee t (some {}) := by
  unfold addThread at step
  split at step
  · rename_i joinable
    split at step
    · cases step
    · rename_i new
      exact .inr ⟨joinable, Option.not_isSome_iff_eq_none.mp new, (Except.ok.inj step).symm⟩
  · rename_i detached
    exact .inl ⟨Bool.eq_false_iff.mpr detached, (Except.ok.inj step).symm⟩

theorem Linked.addThread {joinable : Bool} (h : Linked s) (step : s.addThread t joinable = .ok s') :
    Linked s' := by
  obtain ⟨-, rfl⟩ | ⟨-, new, rfl⟩ := addThread_cases step
  · exact h
  · refine h.setJoinee (by rw [joinerOf, new]; rfl) rfl ?_ ?_
    · intro x hx joined
      obtain rfl := Option.some.inj hx
      exact Bool.noConfusion joined
    · intro x hx done
      obtain rfl := Option.some.inj hx
      exact Bool.noConfusion done

theorem Linked.killThread {r : PthreadJoinManager × Option Nat} (h : Linked s)
    (step : s.killThread e v = .ok r) : Linked r.1 := by
  cases hx : s.joinables e with
  | none =>
    simp only [PthreadJoinManager.killThread, hx] at step
    obtain rfl := Except.ok.inj step
    exact h
  | some x =>
    obtain ⟨j, y, hy, names, run⟩ | ⟨alone, run⟩ := h.killThread_cases hx v
    · obtain rfl := Except.ok.inj (run.symm.trans step)
      exact (h.store (p := y.retvalptr) (v := v)).part
        (by rw [joineeOf_store]; exact joineeOf_eq_some.mpr ⟨y, hy, names⟩)
    · obtain rfl := Except.ok.inj (run.symm.trans step)
      refine h.setJoinee (joinerOf_eq_none_of hx alone) ?_ ?_ ?_
      · exact if_neg (by rw [alone]; exact Bool.false_ne_true)
      · intro x' hx' joined
        obtain rfl := Option.some.inj hx'
        exact absurd (alone.symm.trans joined) Bool.false_ne_true
      · intro x' hx' _
        obtain rfl := Option.some.inj hx'
        rfl

theorem Linked.detachThread (h : Linked s) : Linked (s.detachThread t).1 := by
  unfold PthreadJoinManager.detachThread
  cases hx : s.joinables t with
  | none => exact h
  | some x =>
    by_cases joined : x.joined = true
    · simpa only [joined, if_true] using h
    · have alone : x.joined = false := Bool.eq_false_iff.mpr joined
      simpa only [alone, Bool.false_eq_true, if_false] using h.erase (joinerOf_eq_none_of hx alone)

theorem Linked.joinThreads {r : PthreadJoinManager × Bool} (h : Linked s)
    (step : s.joinThreads j e p = .ok r) : Linked r.1 := by
  obtain ⟨-, x, hx, alone, ⟨v, -, -, rfl⟩ | ⟨running, idle, rfl⟩⟩ := h.joinThreads_cases step
  · exact h.store.erase (by rw [joinerOf_store]; exact joinerOf_eq_none_of hx alone)
  · exact h.join (joinerOf_eq_none_of hx alone) (by rw [joineeOf, idle]; rfl) running

theorem call_killThread (step : s.call (.killThread t v) = .ok s') :
    ∃ r, s.killThread t v = .ok r ∧ r.1 = s' := by
  cases run : s.killThread t v with
  | error stop => rw [call, run] at step; cases step
  | ok r => rw [call, run] at step; exact ⟨r, rfl, Except.ok.inj step⟩

theorem call_joinThreads (step : s.call (.joinThreads j e p) = .ok s') :
    ∃ r, s.joinThreads j e p = .ok r ∧ r.1 = s' := by
  cases run : s.joinThreads j e p with
  | error stop => rw [call, run] at step; cases step
  | ok r => rw [call, run] at step; exact ⟨r, rfl, Except.ok.inj step⟩

theorem Linked.call (h : Linked s) (step : s.call c = .ok s') : Linked s' := by
  cases c with
  | addThread t joinable => exact h.addThread step
  | killThread t retval =>
    obtain ⟨r, run, rfl⟩ := call_killThread step
    exact h.killThread run
  | detachThread t =>
    obtain rfl := Except.ok.inj step
    exact h.detachThread
  | joinThreads joiner joinee retvalptr =>
    obtain ⟨r, run, rfl⟩ := call_joinThreads step
    exact h.joinThreads run

theorem calls_cons : s.calls (c :: cs) = (s.call c).bind (calls · cs) := rfl

theorem calls_append {ds : List JoinCall} : s.calls (cs ++ ds) = (s.calls cs).bind (calls · ds) :=
  List.foldlM_append

theorem calls_cons_ok (run : s.calls (c :: cs) = .ok s') :
    ∃ s₁, s.call c = .ok s₁ ∧ s₁.calls cs = .ok s' := by
  rw [calls_cons] at run
  cases step : s.call c with
  | error stop => rw [step] at run; cases run
  | ok s₁ => rw [step] at run; exact ⟨s₁, rfl, run⟩

theorem Linked.calls (h : Linked s) (run : s.calls cs = .ok s') : Linked s' := by
  induction cs generalizing s with
  | nil =>
    obtain rfl := Except.ok.inj run
    exact h
  | cons c cs ih =>
    obtain ⟨s₁, step, rest⟩ := calls_cons_ok run
    exact ih (h.call step) rest

theorem linked_start {memory : Nat → Nat} : Linked { memory } where
  names _ _ := iff_of_false (Option.some_ne_none _).symm (Option.some_ne_none _).symm
  written _ _ hx := absurd hx.symm (Option.some_ne_none _)
  returned _ _ hx := absurd hx.symm (Option.some_ne_none _)

/-- Nobody can join `e` any more. -/
def Spent (s : PthreadJoinManager) (e : Nat) : Prop :=
  ∀ x, s.joinables e = some x → x.joined = true

theorem Spent.of_erased (gone : s.joinables e = none) : Spent s e := by
  intro x hx
  rw [gone] at hx
  cases hx

theorem Spent.of_eq (spent : Spent s e) (same : s'.joinables e = s.joinables e) : Spent s' e := by
  intro x hx
  exact spent x (same ▸ hx)

theorem Linked.spent_joinThreads {r : PthreadJoinManager × Bool} (h : Linked s)
    (step : s.joinThreads j e p = .ok r) : Spent r.1 e := by
  obtain ⟨-, x, hx, alone, ⟨v, -, -, rfl⟩ | ⟨running, idle, rfl⟩⟩ := h.joinThreads_cases step
  · exact .of_erased setJoinee_self
  · intro x' hx'
    rw [setJoining_joinables, setJoinee_self] at hx'
    obtain rfl := Option.some.inj hx'
    rfl

theorem Spent.not_joined {r : PthreadJoinManager × Bool} (h : Linked s) (spent : Spent s e) :
    s.joinThreads j e p ≠ .ok r := by
  intro step
  obtain ⟨-, x, hx, alone, -⟩ := h.joinThreads_cases step
  exact Bool.false_ne_true (alone.symm.trans (spent x hx))

theorem Spent.call (h : Linked s) (spent : Spent s e) (step : s.call c = .ok s')
    (old : c ≠ .addThread e true) : Spent s' e := by
  cases c with
  | addThread t joinable =>
    obtain ⟨-, rfl⟩ | ⟨rfl, new, rfl⟩ := addThread_cases step
    · exact spent
    · have ne : e ≠ t := by
        rintro rfl
        exact old rfl
      exact spent.of_eq (setJoinee_of_ne ne)
  | killThread t retval =>
    obtain ⟨r, run, rfl⟩ := call_killThread step
    cases hx : s.joinables t with
    | none =>
      simp only [killThread, hx] at run
      obtain rfl := Except.ok.inj run
      exact spent
    | some x =>
      by_cases here : e = t
      · subst here
        obtain ⟨j, y, hy, names, run'⟩ | ⟨alone, run'⟩ := h.killThread_cases hx retval
        · obtain rfl := Except.ok.inj (run'.symm.trans run)
          exact .of_erased setJoinee_self
        · exact absurd (alone.symm.trans (spent x hx)) Bool.false_ne_true
      · obtain ⟨j, y, hy, names, run'⟩ | ⟨alone, run'⟩ := h.killThread_cases hx retval
        · obtain rfl := Except.ok.inj (run'.symm.trans run)
          exact spent.of_eq (by rw [setJoinee_of_ne here, setJoining_joinables, store_joinables])
        · obtain rfl := Except.ok.inj (run'.symm.trans run)
          exact spent.of_eq (setJoinee_of_ne here)
  | detachThread t =>
    obtain rfl := Except.ok.inj step
    unfold detachThread
    cases hx : s.joinables t with
    | none => exact spent
    | some x =>
      show Spent (if x.joined then s else s.setJoinee t none) e
      split
      · exact spent
      · by_cases here : e = t
        · subst here
          exact .of_erased setJoinee_self
        · exact spent.of_eq (setJoinee_of_ne here)
  | joinThreads joiner joinee retvalptr =>
    obtain ⟨r, run, rfl⟩ := call_joinThreads step
    by_cases here : e = joinee
    · subst here
      exact h.spent_joinThreads run
    · obtain ⟨-, x, hx, alone, ⟨v, -, -, rfl⟩ | ⟨running, idle, rfl⟩⟩ := h.joinThreads_cases run
      · exact spent.of_eq (by rw [setJoinee_of_ne here, store_joinables])
      · exact spent.of_eq (by rw [setJoining_joinables, setJoinee_of_ne here])

theorem Spent.calls (h : Linked s) (spent : Spent s e) (run : s.calls cs = .ok s')
    (old : .addThread e true ∉ cs) : Spent s' e := by
  induction cs generalizing s with
  | nil =>
    obtain rfl := Except.ok.inj run
    exact spent
  | cons c cs ih =>
    obtain ⟨s₁, step, rest⟩ := calls_cons_ok run
    obtain ⟨ne, old⟩ := not_or.mp (mt List.mem_cons.mpr old)
    exact ih (h.call step) (spent.call h step (Ne.symm ne)) rest old

theorem calls_append_ok {ds : List JoinCall} (run : s.calls (cs ++ ds) = .ok s') :
    ∃ s₁, s.calls cs = .ok s₁ ∧ s₁.calls ds = .ok s' := by
  rw [calls_append] at run
  cases first : s.calls cs with
  | error stop => rw [first] at run; cases run
  | ok s₁ => rw [first] at run; exact ⟨s₁, rfl, run⟩

theorem Linked.added_between {before between after : List JoinCall} {j' p' : Nat} (h : Linked s)
    (run : s.calls (before ++ .joinThreads j e p :: (between ++ .joinThreads j' e p' :: after)) =
      .ok s') : .addThread e true ∈ between := by
  by_contra old
  obtain ⟨s₁, run, rest⟩ := calls_append_ok run
  obtain ⟨s₂, step, rest⟩ := calls_cons_ok rest
  obtain ⟨s₃, middle, rest⟩ := calls_append_ok rest
  obtain ⟨s₄, again, -⟩ := calls_cons_ok rest
  have h₁ := h.calls run
  have h₂ := h₁.call step
  obtain ⟨r, first, rfl⟩ := call_joinThreads step
  obtain ⟨r', second, -⟩ := call_joinThreads again
  exact ((h₁.spent_joinThreads first).calls h₂ middle old).not_joined (h₂.calls middle) second

end PthreadJoinManager
end McSim.Pthread
