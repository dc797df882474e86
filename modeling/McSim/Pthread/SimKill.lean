import McSim.Pthread.SimQueues

/-! A thread that another one cancels or kills.
It leaves as if it were active, and no queue is told: everything about it is gone if and only if it
was not waiting. -/

namespace McSim.Pthread.PthreadSim

open Contract Scheduler Waiting

variable {s s' : PthreadSim} {strict : Prop}

def Paired (s : PthreadSim) : Prop := ∀ t j, s.joinerOf t = some j → s.joinings j = some t

theorem joinerOf_setJoinee_self (s : PthreadSim) (t : Nat) (x : Option PthreadJoinee) :
    (s.setJoinee t x).joinerOf t = x.bind PthreadJoinee.joiner := by
  simp [joinerOf, setJoinee]

theorem joinerOf_setJoinee_of_ne (s : PthreadSim) {t u : Nat} (ne : u ≠ t)
    (x : Option PthreadJoinee) :
    (s.setJoinee t x).joinerOf u = s.joinerOf u := by
  simp [joinerOf, setJoinee, ne]

theorem move_paired (h : s.Paired) (move : Move strict s s') : s'.Paired := by
  cases move with
  | join joiner t x scheduler is alone ne idle turned =>
    intro u j joins
    replace joins : (s.setJoinee t (some { x with joiner := some joiner })).joinerOf u = some j :=
      joins
    show Function.update s.joinings joiner (some t) j = some u
    by_cases same : u = t
    · subst same
      rw [joinerOf_setJoinee_self] at joins
      rw [← Option.some.inj joins, Function.update_self]
    · rw [joinerOf_setJoinee_of_ne s same] at joins
      have waits := h u j joins
      have other : j ≠ joiner := fun is => nomatch (is ▸ waits).symm.trans idle
      rw [Function.update_of_ne other, waits]
  | joined joiner t x scheduler is joins waits turned =>
    intro u j joins'
    replace joins' : (s.setJoinee t none).joinerOf u = some j := joins'
    show Function.update s.joinings joiner none j = some u
    by_cases same : u = t
    · subst same
      rw [joinerOf_setJoinee_self] at joins'
      exact nomatch joins'
    · rw [joinerOf_setJoinee_of_ne s same] at joins'
      have waits' := h u j joins'
      have other : j ≠ joiner := fun is => same (Option.some.inj (waits'.symm.trans (is ▸ waits)))
      rw [Function.update_of_ne other, waits']
  | joinee t x old new =>
    intro u j joins
    by_cases same : u = t
    · subst same
      rw [joinerOf_setJoinee_self] at joins
      obtain ⟨y, is, joiner⟩ := Option.bind_eq_some_iff.mp joins
      exact nomatch joiner.symm.trans (new y is)
    · rw [joinerOf_setJoinee_of_ne s same] at joins
      exact h u j joins
  | _ => exact h

structure Reached (s : PthreadSim) : Prop where
  apart : s.view.Apart
  paired : s.Paired

theorem moves_reached (h : s.Reached) (moves : Moves strict s s') : s'.Reached := by
  induction moves with
  | refl => exact h
  | tail moves move ih => exact ⟨steps_apart ih.apart (move_steps move), move_paired ih.paired move⟩

theorem call_reached (h : s.Reached) {c : SimCall} {error : Nat} (ok : s.call c = .ok (s', error)) :
    Moves False s s' ∧ s'.Reached := by
  have moves : Moves False s s' := (call_moves h.apart False.elim).of_ok ok
  exact ⟨moves, moves_reached h moves⟩

theorem run_reached {allowed : PthreadSim → SimCall → Prop} (h : s.Reached)
    (run : Run allowed s s') :
    Moves False s s' ∧ s'.Reached := by
  induction run with
  | refl => exact ⟨.refl, h⟩
  | call run right ok ih =>
    have next := call_reached ih.2 ok
    exact ⟨ih.1.trans next.1, next.2⟩

theorem start_reached (numHthreads : Nat) (replies : Nat → Reply) (ignoreSkipInstrs : Bool)
    (kinds : Nat → MutexKind) : (start numHthreads replies ignoreSkipInstrs kinds).Reached := by
  have nowhere (t : Nat) : (start numHthreads replies ignoreSkipInstrs kinds).held t = 0 := by
    funext p
    cases p <;> rfl
  refine ⟨⟨fun t live => ?_, fun t _ => nowhere t, fun t => .inl (nowhere t),
    fun t _ _ => nowhere t⟩, nofun⟩
  exact absurd live (Finset.notMem_empty t)

theorem Paired.not_joiner (h : s.Paired) {t : Nat} (unkept : s.held t = 0) (u : Nat) :
    s.joinerOf u ≠ some t := fun joins => by
  have none : (if (s.joinings t).isSome then 1 else 0) = 0 := congrFun unkept .join
  rw [h u t joins] at none
  exact nomatch none

structure Ended (t : Nat) (s s' : PthreadSim) : Prop where
  ids : s'.newThreadId = s.newThreadId
  live : s'.scheduler.live = s.scheduler.live.erase t
  nactive : s'.scheduler.nactive =
    s.scheduler.nactive + (if (s.joinerOf t).isSome then 1 else 0) - 1
  held : s.joinerOf t ≠ some t → s'.held t = s.held t

theorem kill_ended {t : Nat} {s₁ : PthreadSim}
    (h : ∀ scheduler, Killed t s₁.scheduler scheduler →
      Ended t s { s₁.setCancel t none with scheduler }) :
    Meets (fun _ => True) (Ended t s)
      (if (s₁.cancels t).isNone then .error .assertion
      else s₁.scheduler.killThread t >>= fun scheduler =>
        pure { s₁.setCancel t none with scheduler }) := by
  split
  · trivial
  · simp only [meets_bind]
    exact (killThread_killed t).mono (fun r killed => h r killed) fun _ h => h

theorem endThread_ended (t : Nat) : Meets (fun _ => True) (Ended t s) (s.endThread t) := by
  unfold endThread
  simp only [meets_bind]
  refine (joinKill_meets t).mono (fun r h => ?_) fun _ h => h
  have alone_ended (s₁ : PthreadSim) (alone : s.joinerOf t = none)
      (same : s₁.scheduler = s.scheduler ∧ s₁.newThreadId = s.newThreadId ∧ s₁.held = s.held)
      (scheduler : Scheduler) (killed : Killed t s₁.scheduler scheduler) :
      Ended t s { s₁.setCancel t none with scheduler } := by
    refine ⟨same.2.1, killed.live.trans (by rw [same.1]), killed.nactive.trans ?_,
      fun _ => congrFun same.2.2 t⟩
    rw [same.1, alone]
    exact congrArg (· - 1) (add_zero _).symm
  rcases h with ⟨none, alone, stays | ⟨x, has, new⟩⟩ | ⟨joiner, x, is, joins, waits, rfl⟩
  · rw [none, stays]
    exact kill_ended (alone_ended s alone ⟨rfl, rfl, rfl⟩)
  · rw [none, has]
    exact kill_ended (alone_ended _ alone ⟨rfl, rfl, rfl⟩)
  · refine (unblockThread_meets joiner).mono (fun r' h' => ?_) fun _ h => h
    obtain ⟨scheduler₁, rfl, -, turned⟩ := h'
    have joinedBy : s.joinerOf t = some joiner := by
      unfold joinerOf
      rw [is]
      exact joins
    refine kill_ended fun scheduler killed => ⟨rfl, ?_, ?_, fun other => ?_⟩
    · exact killed.live.trans (congrArg (Finset.erase · t) turned.live)
    · rw [joinedBy]
      exact killed.nactive.trans (congrArg (· - 1) turned.nactive)
    · have ne : t ≠ joiner := fun same => other (joinedBy.trans (congrArg some same.symm))
      funext p
      cases p with
      | join => simp [held, setCancel, setJoinee, setJoining, ne]
      | mutex m => rfl
      | cond c => rfl
      | barrier b => rfl

/-- The call ends thread `t` at once. -/
def Kills (s : PthreadSim) (t : Nat) : SimCall → Prop
  | .cancel u => u = t ∧ ∃ x, s.cancels t = some x ∧ x.enabled = true ∧ x.asynchronous = true
  | .kill u signo => u = t ∧ signo ≠ 0
  | _ => False

theorem cancel_ended {t : Nat} (live : t ∈ s.scheduler.live) (other : t ≠ s.current)
    (executed : (s.scheduler.pthreads s.current).executed = true)
    {x : PthreadCancel} (is : s.cancels t = some x)
    (atOnce : x.enabled = true ∧ x.asynchronous = true) :
    Meets (fun _ => True) (fun r => Ended t s r.1) (s.cancel t) := by
  unfold cancel
  by_cases here : s.current ∈ s.scheduler.live
  · rw [onceExecuted_eq here executed, if_neg (not_not.mpr live)]
    simp only [is]
    rw [if_pos atOnce, if_neg other]
    simp only [meets_bind]
    exact (endThread_ended t).mono (fun r h => h) fun _ h => h
  · unfold onceExecuted
    rw [if_pos here]
    trivial

theorem kill_call_ended {t signo : Nat} (live : t ∈ s.scheduler.live) (other : t ≠ s.current)
    (executed : (s.scheduler.pthreads s.current).executed = true)
    (signal : signo ≠ 0) : Meets (fun _ => True) (fun r => Ended t s r.1) (s.kill t signo) := by
  unfold kill
  by_cases here : s.current ∈ s.scheduler.live
  · rw [onceExecuted_eq here executed, if_pos ⟨live, signal⟩]
    split
    · trivial
    · rename_i x is
      have marked : (s.setCancel t (some { x with enabled := true, asynchronous := true })).cancels
        t =
          some { x with enabled := true, asynchronous := true } := by
        simp [setCancel]
      simp only [meets_bind]
      refine Meets.mono (cancel_ended live other executed marked ⟨rfl, rfl⟩) (fun r h => ?_)
        fun _ h => h
      exact ⟨h.ids, h.live, h.nactive, h.held⟩
  · unfold onceExecuted
    rw [if_pos here]
    trivial

theorem kills_ended {t : Nat} (live : t ∈ s.scheduler.live) (other : t ≠ s.current)
    (executed : (s.scheduler.pthreads s.current).executed = true)
    {c : SimCall} (kills : s.Kills t c) :
      Meets (fun _ => True) (fun r => Ended t s r.1) (s.call c) := by
  cases c with
  | cancel u =>
    obtain ⟨rfl, x, is, atOnce⟩ := kills
    exact cancel_ended live other executed is atOnce
  | kill u signo =>
    obtain ⟨rfl, signal⟩ := kills
    exact kill_call_ended live other executed signal
  | _ => exact kills.elim

/-- The threads that a call may choose to go on, or to lock a mutex -/
def picks (s : PthreadSim) : SimCall → List Nat
  | .mutexUnlock m | .condWait _ m => (s.spinning m).head?.toList
  | .condSignal c => ((s.waiters c).map Prod.fst).head?.toList
  | .condBroadcast c => (s.waiters c).map Prod.fst
  | .barrierWait b => s.barrierWaiters b
  | .exit | .join _ | .testcancel => (s.joinerOf s.current).toList
  | .cancel u | .kill u _ => (s.joinerOf u).toList
  | _ => []

/-- Nothing is left of thread `t`, neither in a queue nor for a call to come. -/
structure Forgotten (t : Nat) (s s' : PthreadSim) : Prop where
  queues : s'.held t = 0
  joiner : ∀ u, s'.joinerOf u ≠ some t
  nactive : s'.scheduler.nactive = s.scheduler.nactive +
    (if (s.joinerOf t).isSome then 1 else 0) - if (s.scheduler.pthreads t).active then 1 else 0
  later : ∀ s'' c, Run (fun _ _ => True) s' s'' → t ∉ s''.picks c

theorem Reached.not_picked (h : s.Reached) {t : Nat} (gone : s.view.Gone t) (c : SimCall) :
    t ∉ s.picks c := by
  have no_joiner := h.paired.not_joiner gone.unkept
  have no_mutex (m : Nat) : t ∉ s.spinning m :=
    List.count_eq_zero.mp (congrFun gone.unkept (.mutex m))
  have no_cond (c : Nat) : t ∉ (s.waiters c).map Prod.fst :=
    List.count_eq_zero.mp (congrFun gone.unkept (.cond c))
  have first {l : List Nat} (none : t ∉ l) : t ∉ l.head?.toList := fun mem =>
    none (List.mem_of_mem_head? (Option.mem_toList.mp mem))
  have joins (u : Nat) : t ∉ (s.joinerOf u).toList :=
    fun mem => no_joiner u (Option.mem_toList.mp mem)
  cases c with
  | mutexUnlock m => exact first (no_mutex m)
  | condWait c m => exact first (no_mutex m)
  | condSignal c => exact first (no_cond c)
  | condBroadcast c => exact no_cond c
  | barrierWait b => exact List.count_eq_zero.mp (congrFun gone.unkept (.barrier b))
  | exit => exact joins _
  | join u => exact joins _
  | testcancel => exact joins _
  | cancel u => exact joins u
  | kill u signo => exact joins u
  | _ => exact List.not_mem_nil

theorem Ended.forgotten {t : Nat} (h : s.Reached) (h' : s'.Reached) (ended : Ended t s s')
    (live : t ∈ s.scheduler.live) (active : (s.scheduler.pthreads t).active = true) :
      Forgotten t s s' := by
  have unkept : s.held t = 0 := h.apart.free t live active
  have gone : s'.view.Gone t := by
    refine ⟨?_, ?_, (ended.held (h.paired.not_joiner unkept t)).trans unkept⟩
    · show t ∈ Finset.range s'.newThreadId
      rw [ended.ids]
      exact h.apart.known t live
    · show t ∉ s'.scheduler.live
      rw [ended.live]
      exact Finset.notMem_erase t _
  refine ⟨gone.unkept, h'.paired.not_joiner gone.unkept, ?_, fun s'' c run => ?_⟩
  · rw [ended.nactive, active]
    rfl
  · have after := run_reached h' run
    exact after.2.not_picked (steps_gone gone (moves_steps after.1)) c

theorem forgotten_iff_active {numHthreads : Nat} {replies : Nat → Reply} {ignoreSkipInstrs : Bool}
    {kinds : Nat → MutexKind}
    (run : Run (fun _ _ => True) (start numHthreads replies ignoreSkipInstrs kinds) s) {t : Nat}
    (live : t ∈ s.scheduler.live) (other : t ≠ s.current)
    (executed : (s.scheduler.pthreads s.current).executed = true)
    {c : SimCall} (kills : s.Kills t c) {error : Nat} (ok : s.call c = .ok (s', error)) :
    Forgotten t s s' ↔ (s.scheduler.pthreads t).active = true := by
  have reached := (run_reached (start_reached numHthreads replies ignoreSkipInstrs kinds) run).2
  have ended := (kills_ended live other executed kills).of_ok ok
  refine ⟨fun forgotten => ?_, ended.forgotten reached (call_reached reached ok).2 live⟩
  by_contra asleep
  rw [Bool.not_eq_true] at asleep
  have counted := ended.nactive.symm.trans forgotten.nactive
  rw [asleep] at counted
  exact absurd (sub_right_injective counted) (by decide)

theorem forgotten_iff_active_running : ∃ s s' error, s.call (.kill 1 9) = .ok (s', error) ∧
    Forgotten 1 s s' := by
  have h : Meets (fun _ => False) (fun s : PthreadSim => 1 ∈ s.scheduler.live ∧ 1 ≠ s.current ∧
      (s.scheduler.pthreads s.current).executed = true ∧ (s.scheduler.pthreads 1).active = true ∧
      Meets (fun _ => False) (fun _ => True) (s.call (.kill 1 9)))
      (pair.follow [.create false 0 false, .create false 0 false]) := by decide +kernel
  obtain ⟨s, hs, live, other, executed, active, called⟩ := h.result
  obtain ⟨⟨s', error⟩, ok, -⟩ := called.result
  have run : Run (fun _ _ => True) pair s := Run.follow (fun _ _ _ => trivial) .refl hs
  have kills : s.Kills 1 (.kill 1 9) := ⟨rfl, by decide⟩
  exact ⟨s, s', error, ok, (forgotten_iff_active run live other executed kills ok).mpr active⟩

/-- A thread that waits on a condition is killed, and stays in the list. -/
theorem dead_thread_waits :
    ¬ ∀ (numHthreads : Nat) (replies : Nat → Reply) (ignoreSkipInstrs : Bool)
    (kinds : Nat → MutexKind) (s s' : PthreadSim) (t : Nat) (c : SimCall) (error : Nat),
    Run (fun _ _ => True) (start numHthreads replies ignoreSkipInstrs kinds) s →
    t ∈ s.scheduler.live → t ≠ s.current → (s.scheduler.pthreads s.current).executed = true →
    s.Kills t c → s.call c = .ok (s', error) → Forgotten t s s' := by
  intro claim
  have h : Meets (fun _ => False) (fun s : PthreadSim => 0 ∈ s.scheduler.live ∧ 0 ≠ s.current ∧
      (s.scheduler.pthreads s.current).executed = true ∧
      Meets (fun _ => False) (fun r => r.1.held 0 (.cond 16) = 1) (s.call (.kill 0 9)))
      (pair.follow [.create false 0 false, .create false 0 false, .condWait 16 24]) := by
        decide +kernel
  obtain ⟨s, hs, live, other, executed, called⟩ := h.result
  obtain ⟨⟨s', error⟩, ok, kept⟩ := called.result
  have run : Run (fun _ _ => True) pair s := Run.follow (fun _ _ _ => trivial) .refl hs
  have forgotten := claim _ _ _ _ s s' 0 (.kill 0 9) error run live other executed
    ⟨rfl, by decide⟩ ok
  exact absurd (kept.symm.trans (congrFun forgotten.queues (.cond 16))) (by decide)

end McSim.Pthread.PthreadSim
