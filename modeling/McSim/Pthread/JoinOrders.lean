import McSim.Pthread.Join

/-! The two orders of joining.
A call on other threads neither reads nor writes the record of a thread, so that a record can wait
for the other call; then the end of a thread and the call that joins it commute. -/

namespace McSim.Pthread

namespace PthreadJoinManager

variable {s s' : PthreadJoinManager} {t j e p v : Nat} {x : Joinee} {c : JoinCall}
  {cs : List JoinCall}

section Frame
variable {u : Nat} {x' : Option Joinee} {y : Option Joiner}

theorem addThread_setJoinee {joinable : Bool} (ne : u ≠ t) :
    (s.setJoinee t x').addThread u joinable = (s.addThread u joinable).map (·.setJoinee t x') := by
  unfold addThread
  rw [setJoinee_of_ne ne, setJoinee_comm ne.symm]
  cases joinable
  · rfl
  · by_cases old : (s.joinables u).isSome = true
    · simp only [old, if_true]
      rfl
    · simp only [old, if_true]
      rfl

theorem killThread_setJoinee (ne : u ≠ t) :
    (s.setJoinee t x').killThread u v =
      (s.killThread u v).map fun r => (r.1.setJoinee t x', r.2) := by
  unfold killThread
  rw [setJoinee_of_ne ne, setJoinee_joinings]
  cases s.joinables u with
  | none => rfl
  | some x =>
    by_cases joined : x.joined = true
    · simp only [joined, if_true]
      cases x.joiner with
      | none => rfl
      | some joiner =>
        simp only
        cases s.joinings joiner with
        | none => rfl
        | some y =>
          simp only
          by_cases names : y.joinee = u
          · simp only [names, ne_eq, not_true_eq_false, if_false]
            rw [store_setJoinee, ← setJoinee_setJoining, setJoinee_comm ne.symm]
            rfl
          · simp only [names, ne_eq, not_false_eq_true, if_true]
            rfl
    · simp only [joined]
      rw [if_neg Bool.false_ne_true, if_neg Bool.false_ne_true, setJoinee_comm ne.symm]
      rfl

theorem detachThread_setJoinee (ne : u ≠ t) :
    ((s.setJoinee t x').detachThread u).1 = (s.detachThread u).1.setJoinee t x' := by
  unfold detachThread
  rw [setJoinee_of_ne ne]
  cases s.joinables u with
  | none => rfl
  | some x =>
    by_cases joined : x.joined = true
    · simp only [joined, if_true]
    · simp only [joined, Bool.false_eq_true, if_false]
      rw [setJoinee_comm ne.symm]

theorem joinThreads_setJoinee (ne : e ≠ t) :
    (s.setJoinee t x').joinThreads j e p =
      (s.joinThreads j e p).map fun r => (r.1.setJoinee t x', r.2) := by
  unfold joinThreads
  rw [setJoinee_of_ne ne, setJoinee_joinings]
  by_cases self : j = e
  · rw [if_pos self, if_pos self]
    rfl
  rw [if_neg self, if_neg self]
  cases s.joinables e with
  | none => rfl
  | some x =>
    by_cases joined : x.joined = true
    · simp only [joined, if_true]
      rfl
    by_cases done : x.done = true
    · simp only [joined, Bool.false_eq_true, if_false, done, if_true]
      cases x.retval with
      | none =>
        by_cases null : p = 0
        · simp only [null, ne_eq, not_true_eq_false, if_false]
          rw [setJoinee_comm ne.symm]
          rfl
        · simp only [null, ne_eq, not_false_eq_true, if_true]
          rfl
      | some retval =>
        simp only
        rw [store_setJoinee, setJoinee_comm ne.symm]
        rfl
    · simp only [joined, Bool.false_eq_true, if_false, done]
      by_cases busy : (s.joinings j).isSome = true
      · simp only [busy, if_true]
        rfl
      · simp only [busy, Bool.false_eq_true, if_false]
        rw [setJoinee_comm ne.symm]
        rfl

theorem addThread_setJoining {joinable : Bool} :
    (s.setJoining j y).addThread u joinable = (s.addThread u joinable).map (·.setJoining j y) := by
  unfold addThread
  rw [setJoining_joinables]
  cases joinable
  · rfl
  · by_cases old : (s.joinables u).isSome = true
    · simp only [old, if_true]
      rfl
    · simp only [old, if_true]
      rfl

theorem killThread_setJoining (apart : s.joinerOf u ≠ some j) :
    (s.setJoining j y).killThread u v =
      (s.killThread u v).map fun r => (r.1.setJoining j y, r.2) := by
  unfold killThread
  rw [setJoining_joinables]
  cases hx : s.joinables u with
  | none => rfl
  | some x =>
    by_cases joined : x.joined = true
    · simp only [joined, if_true]
      cases hj : x.joiner with
      | none => rfl
      | some joiner =>
        have ne : joiner ≠ j := by
          rintro rfl
          exact apart (joinerOf_eq_some.mpr ⟨x, hx, joined, hj⟩)
        simp only
        rw [setJoining_of_ne ne]
        cases s.joinings joiner with
        | none => rfl
        | some y' =>
          simp only
          by_cases names : y'.joinee = u
          · simp only [names, ne_eq, not_true_eq_false, if_false]
            rw [store_setJoining, setJoining_comm ne.symm, ← setJoinee_setJoining]
            rfl
          · simp only [names, ne_eq, not_false_eq_true, if_true]
            rfl
    · simp only [joined]
      rw [if_neg Bool.false_ne_true, if_neg Bool.false_ne_true, ← setJoinee_setJoining]
      rfl

theorem detachThread_setJoining :
    ((s.setJoining j y).detachThread u).1 = (s.detachThread u).1.setJoining j y := by
  unfold detachThread
  rw [setJoining_joinables]
  cases s.joinables u with
  | none => rfl
  | some x =>
    by_cases joined : x.joined = true
    · simp only [joined, if_true]
    · simp only [joined, Bool.false_eq_true, if_false]
      rfl

theorem joinThreads_setJoining (ne : u ≠ j) :
    (s.setJoining j y).joinThreads u e p =
      (s.joinThreads u e p).map fun r => (r.1.setJoining j y, r.2) := by
  unfold joinThreads
  rw [setJoining_joinables, setJoining_of_ne ne]
  by_cases self : u = e
  · rw [if_pos self, if_pos self]
    rfl
  rw [if_neg self, if_neg self]
  cases s.joinables e with
  | none => rfl
  | some x =>
    by_cases joined : x.joined = true
    · simp only [joined, if_true]
      rfl
    by_cases done : x.done = true
    · simp only [joined, Bool.false_eq_true, if_false, done, if_true]
      cases x.retval with
      | none =>
        by_cases null : p = 0
        · simp only [null, ne_eq, not_true_eq_false, if_false]
          rfl
        · simp only [null, ne_eq, not_false_eq_true, if_true]
          rfl
      | some retval =>
        simp only
        rw [store_setJoining]
        rfl
    · simp only [joined, Bool.false_eq_true, if_false, done]
      by_cases busy : (s.joinings u).isSome = true
      · simp only [busy, if_true]
        rfl
      · simp only [busy, Bool.false_eq_true, if_false]
        rw [setJoinee_setJoining, setJoining_comm ne.symm]
        rfl

theorem call_setJoinee (other : t ∉ c.threads) :
    (s.setJoinee t x').call c = (s.call c).map (·.setJoinee t x') := by
  cases c with
  | addThread u joinable => exact addThread_setJoinee (Ne.symm (List.ne_of_not_mem_cons other))
  | killThread u retval =>
    simp only [call, killThread_setJoinee (Ne.symm (List.ne_of_not_mem_cons other))]
    cases s.killThread u retval <;> rfl
  | detachThread u =>
    exact congrArg Except.ok (detachThread_setJoinee (Ne.symm (List.ne_of_not_mem_cons other)))
  | joinThreads joiner joinee retvalptr =>
    have ne : joinee ≠ t := Ne.symm (List.ne_of_not_mem_cons (List.not_mem_of_not_mem_cons other))
    simp only [call, joinThreads_setJoinee ne]
    cases s.joinThreads joiner joinee retvalptr <;> rfl

theorem Linked.call_setJoining (h : Linked s) (idle : s.joinings j = none) (other : j ∉ c.threads) :
    (s.setJoining j y).call c = (s.call c).map (·.setJoining j y) := by
  cases c with
  | addThread u joinable => exact addThread_setJoining
  | killThread u retval =>
    have apart : s.joinerOf u ≠ some j := by
      rw [Ne, ← h.names, joineeOf, idle]
      exact (Option.some_ne_none u).symm
    simp only [PthreadJoinManager.call, killThread_setJoining apart]
    cases s.killThread u retval <;> rfl
  | detachThread u => exact congrArg Except.ok detachThread_setJoining
  | joinThreads joiner joinee retvalptr =>
    simp only [PthreadJoinManager.call,
      joinThreads_setJoining (Ne.symm (List.ne_of_not_mem_cons other))]
    cases s.joinThreads joiner joinee retvalptr <;> rfl

theorem calls_setJoinee (other : ∀ c ∈ cs, t ∉ c.threads) :
    (s.setJoinee t x').calls cs = (s.calls cs).map (·.setJoinee t x') := by
  induction cs generalizing s with
  | nil => rfl
  | cons c cs ih =>
    obtain ⟨here, rest⟩ := List.forall_mem_cons.mp other
    rw [calls_cons, calls_cons, call_setJoinee here]
    cases s.call c with
    | error stop => rfl
    | ok s₁ => exact ih rest

theorem calls_gone (gone : s.joinables e = none) (other : ∀ c ∈ cs, e ∉ c.threads)
    (run : s.calls cs = .ok s') : s'.joinables e = none := by
  have frame : (s.setJoinee e none).calls cs = _ := calls_setJoinee other
  rw [setJoinee_eq_self gone, run] at frame
  rw [Except.ok.inj frame, setJoinee_self]

theorem Linked.call_idle (h : Linked s) (idle : s.joinings j = none) (other : j ∉ c.threads)
    (step : s.call c = .ok s') : s'.joinings j = none := by
  have frame := h.call_setJoining (y := none) idle other
  rw [setJoining_eq_self idle, step] at frame
  rw [Except.ok.inj frame, setJoining_self]

theorem Linked.calls_idle (h : Linked s) (idle : s.joinings j = none)
    (other : ∀ c ∈ cs, j ∉ c.threads) (run : s.calls cs = .ok s') : s'.joinings j = none := by
  induction cs generalizing s with
  | nil =>
    obtain rfl := Except.ok.inj run
    exact idle
  | cons c cs ih =>
    obtain ⟨here, rest⟩ := List.forall_mem_cons.mp other
    obtain ⟨s₁, step, run⟩ := calls_cons_ok run
    exact ih (h.call step) (h.call_idle idle here step) rest run

theorem Linked.calls_setJoining (h : Linked s) (idle : s.joinings j = none)
    (other : ∀ c ∈ cs, j ∉ c.threads) :
    (s.setJoining j y).calls cs = (s.calls cs).map (·.setJoining j y) := by
  induction cs generalizing s with
  | nil => rfl
  | cons c cs ih =>
    obtain ⟨here, rest⟩ := List.forall_mem_cons.mp other
    rw [calls_cons, calls_cons, h.call_setJoining idle here]
    cases step : s.call c with
    | error stop => rfl
    | ok s₁ => exact ih (h.call step) (h.call_idle idle here step) rest

end Frame

structure Ready (s : PthreadJoinManager) (j e : Nat) : Prop where
  linked : Linked s
  ne : j ≠ e
  joinable : ∃ x, s.joinables e = some x ∧ x.joined = false ∧ x.done = false
  idle : s.joinings j = none

section Orders
variable (h : Ready s j e) {mid : List JoinCall}
  (apart : ∀ c ∈ mid, j ∉ c.threads ∧ e ∉ c.threads)
include h

theorem Ready.free : s.joinerOf e = none := by
  obtain ⟨x, hx, alone, -⟩ := h.joinable
  exact joinerOf_eq_none_of hx alone

include apart

theorem Ready.join_kill :
    s.calls (.joinThreads j e p :: (mid ++ [.killThread e v])) =
      ((s.setJoinee e none).calls mid).map (·.store p v) := by
  obtain ⟨x, hx, alone, running⟩ := h.joinable
  have m : Linked (s.setJoinee e none) := h.linked.erase h.free
  have first : s.call (.joinThreads j e p) =
      .ok (((s.setJoinee e none).setJoining j (some ⟨e, p⟩)).setJoinee e
        (some { x with joined := true, joiner := some j })) := by
    rw [call, joinThreads_waits h.ne hx alone running h.idle, ← setJoinee_setJoining,
      setJoinee_setJoinee]
    rfl
  rw [calls_cons, first]
  show calls _ (mid ++ _) = _
  rw [calls_append, calls_setJoinee fun c hc => (apart c hc).2,
    m.calls_setJoining h.idle fun c hc => (apart c hc).1]
  cases run : (s.setJoinee e none).calls mid with
  | error stop => rfl
  | ok s' =>
    have gone : s'.joinables e = none := calls_gone setJoinee_self (fun c hc => (apart c hc).2) run
    have idle : s'.joinings j = none := m.calls_idle h.idle (fun c hc => (apart c hc).1) run
    have last : ((s'.setJoining j (some ⟨e, p⟩)).setJoinee e
        (some { x with joined := true, joiner := some j })).killThread e v = .ok _ :=
      killThread_handed (y := ⟨e, p⟩) setJoinee_self rfl rfl
        (by rw [setJoinee_joinings, setJoining_self]) rfl
    show calls ((s'.setJoining j _).setJoinee e _) [_] = _
    rw [calls_cons, call, last]
    show Except.ok _ = Except.ok _
    rw [store_setJoinee, store_setJoining, setJoinee_setJoining, setJoinee_setJoinee,
      setJoining_setJoining, setJoining_eq_self (by rw [store_joinings, idle]),
      setJoinee_eq_self (by rw [store_joinables, gone])]

theorem Ready.kill_join :
    s.calls (.killThread e v :: (mid ++ [.joinThreads j e p])) =
      ((s.setJoinee e none).calls mid).map (·.store p v) := by
  obtain ⟨x, hx, alone, running⟩ := h.joinable
  have first : s.call (.killThread e v) =
      .ok ((s.setJoinee e none).setJoinee e (some { x with retval := some v, done := true })) := by
    rw [call, killThread_kept hx alone, setJoinee_setJoinee]
    rfl
  rw [calls_cons, first]
  show calls _ (mid ++ _) = _
  rw [calls_append, calls_setJoinee fun c hc => (apart c hc).2]
  cases run : (s.setJoinee e none).calls mid with
  | error stop => rfl
  | ok s' =>
    have gone : s'.joinables e = none := calls_gone setJoinee_self (fun c hc => (apart c hc).2) run
    have last : (s'.setJoinee e (some { x with retval := some v, done := true })).joinThreads j e
      p =
        .ok _ :=
      joinThreads_collects h.ne setJoinee_self alone rfl rfl
    show calls (s'.setJoinee e _) [_] = _
    rw [calls_cons, call, last]
    show Except.ok _ = Except.ok _
    rw [store_setJoinee, setJoinee_setJoinee, setJoinee_eq_self (by rw [store_joinables, gone])]

end Orders

theorem Linked.names_iff (h : Linked s) (j e : Nat) :
    (∃ y, s.joinings j = some y ∧ y.joinee = e) ↔
      ∃ x, s.joinables e = some x ∧ x.joined = true ∧ x.joiner = some j := by
  rw [← joineeOf_eq_some, ← joinerOf_eq_some]
  exact h.names j e

theorem Ready.ends (h : Ready s j e) {mid : List JoinCall} {s₁ : PthreadJoinManager}
    (apart : ∀ c ∈ mid, j ∉ c.threads ∧ e ∉ c.threads) (through : s.calls mid = .ok s₁)
    (p v : Nat) :
    ∃ s', s.calls (.joinThreads j e p :: (mid ++ [.killThread e v])) = .ok s' ∧
      (p ≠ 0 → s'.memory p = v) ∧ s'.joinables e = none ∧ s'.joinings j = none := by
  have free := h.free
  obtain ⟨x, hx, -⟩ := h.joinable
  have alone : ((s.setJoinee e none).setJoinee e (some x)).calls mid = _ :=
    calls_setJoinee fun c hc => (apart c hc).2
  rw [setJoinee_setJoinee, setJoinee_eq_self hx, through] at alone
  rw [h.join_kill apart]
  cases run : (s.setJoinee e none).calls mid with
  | error stop =>
    rw [run] at alone
    cases alone
  | ok m =>
    have gone : m.joinables e = none := calls_gone setJoinee_self (fun c hc => (apart c hc).2) run
    have idle : m.joinings j = none :=
      (h.linked.erase free).calls_idle h.idle (fun c hc => (apart c hc).1) run
    exact ⟨_, rfl, store_self, by rw [store_joinables, gone], by rw [store_joinings, idle]⟩

theorem join_in_either_order (memory : Nat → Nat) (history : List JoinCall) (s : PthreadJoinManager)
    (reached : calls { memory } history = .ok s) :
    (∀ j e, (∃ y, s.joinings j = some y ∧ y.joinee = e) ↔
      ∃ x, s.joinables e = some x ∧ x.joined = true ∧ x.joiner = some j) ∧
    (∀ before between after j j' e p p', history =
        before ++ .joinThreads j e p :: (between ++ .joinThreads j' e p' :: after) →
      .addThread e true ∈ between) ∧
    ∀ j e p v mid, s.joinings j = none → j ≠ e →
      (∃ x, s.joinables e = some x ∧ x.joined = false ∧ x.done = false) →
      (∀ c ∈ mid, j ∉ c.threads ∧ e ∉ c.threads) →
      s.calls (.joinThreads j e p :: (mid ++ [.killThread e v])) =
        s.calls (.killThread e v :: (mid ++ [.joinThreads j e p])) ∧
      ∀ s₁, s.calls mid = .ok s₁ →
        ∃ s', s.calls (.joinThreads j e p :: (mid ++ [.killThread e v])) = .ok s' ∧
          (p ≠ 0 → s'.memory p = v) ∧ s'.joinables e = none ∧ s'.joinings j = none := by
  have linked : Linked s := linked_start.calls reached
  refine ⟨linked.names_iff, ?_, ?_⟩
  · rintro before between after j j' e p p' rfl
    exact linked_start.added_between reached
  · intro j e p v mid idle ne joinable apart
    have ready : Ready s j e := ⟨linked, ne, joinable, idle⟩
    exact ⟨(ready.join_kill apart).trans (ready.kill_join apart).symm,
      fun s₁ through => ready.ends apart through p v⟩

/-- Meanwhile another pair of threads joins the other way around. -/
theorem join_around_another_pair :
    let s : PthreadJoinManager :=
      ({ memory := fun _ => 0 } : PthreadJoinManager).setJoinee 2 (some {}) |>.setJoinee 3 (some {})
    let mid : List JoinCall := [.killThread 3 9, .joinThreads 4 3 16]
    ∃ s', s.calls (.joinThreads 1 2 8 :: (mid ++ [.killThread 2 5])) = .ok s' ∧
      (8 ≠ 0 → s'.memory 8 = 5) ∧ s'.joinables 2 = none ∧ s'.joinings 1 = none :=
  ((join_in_either_order (fun _ => 0) [.addThread 2 true, .addThread 3 true] _ rfl).2.2 1 2 8 5
    [.killThread 3 9, .joinThreads 4 3 16] rfl (by decide) ⟨{}, rfl, rfl, rfl⟩ (by decide)).2 _ rfl

/-- The record of the emulation, which leaves the value out -/
def Joinee.kept (x : Joinee) : PthreadJoinee := { done := x.done, joiner := x.waiter }

structure Keeps (sim : PthreadSim) (s : PthreadJoinManager) : Prop where
  joinables : ∀ t, sim.joinables t = (s.joinables t).map Joinee.kept
  joinings : ∀ t, sim.joinings t = s.joineeOf t

section Emulation
variable {sim : PthreadSim} (k : Keeps sim s)
include k

theorem Keeps.setJoinee (x' : Option Joinee) :
    Keeps (sim.setJoinee t (x'.map Joinee.kept)) (s.setJoinee t x') where
  joinables u := by
    by_cases here : u = t
    · subst here
      simp only [PthreadSim.setJoinee, Function.update_self, setJoinee_self]
    · simp only [PthreadSim.setJoinee, Function.update_of_ne here, setJoinee_of_ne here,
        k.joinables]
  joinings u := k.joinings u

theorem Keeps.setJoining (y : Option Joiner) :
    Keeps (sim.setJoining j (y.map Joiner.joinee)) (s.setJoining j y) where
  joinables u := k.joinables u
  joinings u := by
    by_cases here : u = j
    · subst here
      simp only [PthreadSim.setJoining, Function.update_self, joineeOf_setJoining_self]
    · simp only [PthreadSim.setJoining, Function.update_of_ne here, joineeOf_setJoining_of_ne here,
        k.joinings]

theorem Keeps.store : Keeps sim (s.store p v) where
  joinables t := by rw [store_joinables, k.joinables]
  joinings t := by rw [joineeOf_store, k.joinings]

variable (h : Linked s)
include h

theorem Keeps.joinKill {r : PthreadJoinManager × Option Nat} (step : s.killThread t v = .ok r) :
    ∃ sim', sim.joinKill t = .ok (sim', r.2) ∧ Keeps sim' r.1 := by
  cases hx : s.joinables t with
  | none =>
    have gone : sim.joinables t = none := by rw [k.joinables, hx]; rfl
    simp only [killThread, hx] at step
    obtain rfl := Except.ok.inj step
    exact ⟨sim, by simp only [PthreadSim.joinKill, gone]; rfl, k⟩
  | some x =>
    have kept : sim.joinables t = some x.kept := by rw [k.joinables, hx]; rfl
    obtain ⟨j, y, hy, names, run⟩ | ⟨alone, run⟩ := h.killThread_cases hx v
    · obtain rfl := Except.ok.inj (run.symm.trans step)
      have waits : s.joineeOf j = some t := joineeOf_eq_some.mpr ⟨y, hy, names⟩
      have joiner : x.kept.joiner = some j := by
        have named := (h.names j t).mp waits
        rwa [joinerOf, hx] at named
      refine ⟨(sim.setJoining j none).setJoinee t none, ?_,
        (k.store.setJoining none).setJoinee none⟩
      simp only [PthreadSim.joinKill, kept, joiner, k.joinings, waits, if_true]
      rfl
    · obtain rfl := Except.ok.inj (run.symm.trans step)
      have free : x.kept.joiner = none := if_neg (by rw [alone]; exact Bool.false_ne_true)
      have after : ({ x with retval := some v, done := true } : Joinee).kept =
          { x.kept with done := true } := rfl
      refine ⟨_, ?_, k.setJoinee (some { x with retval := some v, done := true })⟩
      simp only [PthreadSim.joinKill, kept, free, Option.map_some, after]
      rfl

theorem Keeps.joinThreads {r : PthreadJoinManager × Bool} (step : s.joinThreads j e p = .ok r) :
    ∃ sim', sim.joinThreads j e = .ok (sim', r.2) ∧ Keeps sim' r.1 := by
  obtain ⟨ne, x, hx, alone, way⟩ := h.joinThreads_cases step
  have kept : sim.joinables e = some x.kept := by rw [k.joinables, hx]; rfl
  have free : x.kept.joiner = none := if_neg (by rw [alone]; exact Bool.false_ne_true)
  obtain ⟨v, done, -, rfl⟩ | ⟨running, idle, rfl⟩ := way
  · have done' : x.kept.done = true := done
    refine ⟨sim.setJoinee e none, ?_, k.store.setJoinee none⟩
    simp only [PthreadSim.joinThreads, if_neg ne, kept, free, done']
    rfl
  · have running' : x.kept.done = false := running
    have idle' : sim.joinings j = none := by rw [k.joinings, joineeOf, idle]; rfl
    have after : ({ x with joined := true, joiner := some j } : Joinee).kept =
        { x.kept with joiner := some j } := rfl
    refine ⟨_, ?_, (k.setJoinee (some { x with joined := true, joiner := some j })).setJoining
      (some ⟨e, p⟩)⟩
    simp only [PthreadSim.joinThreads, if_neg ne, kept, free, running', idle',
      Option.map_some, after]
    rfl

end Emulation

end PthreadJoinManager
end McSim.Pthread
