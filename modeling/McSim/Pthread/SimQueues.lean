import McSim.Pthread.SimMoves
import McSim.Lib.Waiting
import Mathlib.Data.UInt

/-! Where the threads of the emulation wait.
A move of the emulation is a step of threads that wait at places: the queues of the mutexes, the
lists of the conditions and barriers, and the table of the joining threads. -/

namespace McSim.Pthread.PthreadSim

open Contract Scheduler Waiting

variable {s s' : PthreadSim} {strict : Prop}

inductive Place
  | mutex (m : Nat)
  | cond (c : Nat)
  | barrier (b : Nat)
  | join
deriving DecidableEq

def held (s : PthreadSim) (t : Nat) : Place → Nat
  | .mutex m => (s.spinning m).count t
  | .cond c => ((s.waiters c).map Prod.fst).count t
  | .barrier b => (s.barrierWaiters b).count t
  | .join => if (s.joinings t).isSome then 1 else 0

def view (s : PthreadSim) : Waiting Nat Place UInt32 where
  born := Finset.range s.newThreadId
  live := s.scheduler.live
  active t := (s.scheduler.pthreads t).active
  nactive := s.scheduler.nactive
  held := s.held

theorem held_setSpinning (s : PthreadSim) (m : Nat) (ts : List Nat) (u : Nat) :
    (s.setSpinning m ts).held u = Function.update (s.held u) (.mutex m) (ts.count u) := by
  funext p
  cases p with
  | mutex m' =>
    by_cases same : m' = m
    · subst same
      simp [held, setSpinning]
    · simp [held, setSpinning, same]
  | cond c => rfl
  | barrier b => rfl
  | join => rfl

theorem held_setWaiters (s : PthreadSim) (c : Nat) (ws : List (Nat × Nat)) (u : Nat) :
    (s.setWaiters c ws).held u = Function.update (s.held u) (.cond c)
    ((ws.map Prod.fst).count u) := by
  funext p
  cases p with
  | cond c' =>
    by_cases same : c' = c
    · subst same
      simp [held, setWaiters]
    · simp [held, setWaiters, same]
  | mutex m => rfl
  | barrier b => rfl
  | join => rfl

theorem barrierWaiters_setBarrier (s : PthreadSim) (b b' : Nat) (x : Option BarrierWaiters) :
    (s.setBarrier b x).barrierWaiters b' =
      if b' = b then (x.map BarrierWaiters.waiters).getD [] else s.barrierWaiters b' := by
  by_cases same : b' = b
  · subst same
    unfold barrierWaiters
    rw [setBarrier_self, if_pos rfl]
    cases x <;> rfl
  · simp [barrierWaiters, setBarrier, same]

theorem held_setBarrier (s : PthreadSim) (b : Nat) (x : Option BarrierWaiters) (u : Nat) :
    (s.setBarrier b x).held u = Function.update (s.held u) (.barrier b)
      (((x.map BarrierWaiters.waiters).getD []).count u) := by
  funext p
  cases p with
  | barrier b' =>
    by_cases same : b' = b
    · subst same
      simp [held, barrierWaiters_setBarrier]
    · simp [held, barrierWaiters_setBarrier, same]
  | mutex m => rfl
  | cond c => rfl
  | join => rfl

theorem pushed {f g : Nat → Place → Nat} {p : Place} {t : Nat} {n : Nat → Nat}
    (new : ∀ u, f u = Function.update (g u) p (n u))
    (more : ∀ u, n u = g u p + if u = t then 1 else 0) : f = g + place t p := by
  refine eq_add_place (fun u => ?_) fun u p' ne => ?_
  · rw [new, Function.update_self, more]
  · rw [new, Function.update_of_ne ne]

theorem popped {f g : Nat → Place → Nat} {p : Place} {t : Nat} {n : Nat → Nat}
    (new : ∀ u, f u = Function.update (g u) p (n u))
    (less : ∀ u, g u p = n u + if u = t then 1 else 0) : g = f + place t p := by
  refine eq_add_place (fun u => ?_) fun u p' ne => ?_
  · rw [new, Function.update_self, less]
  · rw [new, Function.update_of_ne ne]

theorem count_head (l : List Nat) (t u : Nat) :
    (t :: l).count u = l.count u + if u = t then 1 else 0 := by
  by_cases same : u = t
  · rw [if_pos same, same, List.count_cons_self]
  · rw [if_neg same, List.count_cons_of_ne (Ne.symm same), add_zero]

theorem count_push (l : List Nat) (t u : Nat) :
    (l ++ [t]).count u = l.count u + if u = t then 1 else 0 := by
  rw [List.count_append, count_head, List.count_nil, zero_add]

theorem held_spin (s : PthreadSim) (t m : Nat) : (s.spin t m).held = s.held + place t (.mutex m) :=
  pushed (held_setSpinning s m _) fun u => count_push _ t u

theorem held_pass {m t : Nat} {rest : List Nat} (queue : s.spinning m = t :: rest) :
    s.held = (s.setSpinning m rest).held + place t (.mutex m) := by
  refine popped (held_setSpinning s m rest) fun u => ?_
  exact (congrArg (List.count u) queue).trans (count_head rest t u)

theorem held_wait (s : PthreadSim) (c t m : Nat) :
    (s.setWaiters c (s.waiters c ++ [(t, m)])).held = s.held + place t (.cond c) := by
  refine pushed (held_setWaiters s c _) fun u => ?_
  rw [List.map_append]
  exact count_push _ t u

theorem held_signal {c t m : Nat} {rest : List (Nat × Nat)}
    (queue : s.waiters c = (t, m) :: rest) :
    s.held = (s.setWaiters c rest).held + place t (.cond c) := by
  refine popped (held_setWaiters s c rest) fun u => ?_
  exact (congrArg (fun ws => List.count u (ws.map Prod.fst)) queue).trans (count_head _ t u)

theorem held_arrive {b t : Nat} {x : BarrierWaiters} (is : s.barriers b = some x) :
    (s.setBarrier b (some { x with waiters := x.waiters ++ [t] })).held =
      s.held + place t (.barrier b) := by
  refine pushed (held_setBarrier s b _) fun u => (count_push _ t u).trans ?_
  rw [← barrierWaiters_of is]
  rfl

theorem held_release {b t : Nat} {x : BarrierWaiters} {rest : List Nat}
    (is : s.barriers b = some { x with waiters := t :: rest }) :
    s.held = (s.setBarrier b (some { x with waiters := rest })).held + place t (.barrier b) := by
  refine popped (held_setBarrier s b _) fun u => ?_
  exact (congrArg (List.count u) (barrierWaiters_of is)).trans (count_head rest t u)

theorem held_emptied {b : Nat} {x : Option BarrierWaiters} (old : s.barrierWaiters b = [])
    (new : ∀ y, x = some y → y.waiters = []) : (s.setBarrier b x).held = s.held := by
  funext u
  rw [held_setBarrier]
  refine Function.update_eq_self_iff.mpr ?_
  have here : s.held u (.barrier b) = 0 := congrArg (List.count u) old
  rw [here]
  cases x with
  | none => rfl
  | some y => exact congrArg (List.count u) (new y rfl)

theorem held_join {joiner t : Nat} (x : Option PthreadJoinee) (idle : s.joinings joiner = none) :
    ((s.setJoinee t x).setJoining joiner (some t)).held = s.held + place joiner .join := by
  refine eq_add_place (fun u => ?_) fun u p ne => ?_
  · by_cases same : u = joiner
    · subst same
      simp [held, setJoining, setJoinee, idle]
    · simp [held, setJoining, setJoinee, same]
  · cases p with
    | join => exact absurd rfl ne
    | mutex m => rfl
    | cond c => rfl
    | barrier b => rfl

theorem held_joined {joiner t : Nat} (waits : s.joinings joiner = some t) :
    s.held = ((s.setJoining joiner none).setJoinee t none).held + place joiner .join := by
  refine eq_add_place (fun u => ?_) fun u p ne => ?_
  · by_cases same : u = joiner
    · subst same
      simp [held, setJoining, setJoinee, waits]
    · simp [held, setJoining, setJoinee, same]
  · cases p with
    | join => exact absurd rfl ne
    | mutex m => rfl
    | cond c => rfl
    | barrier b => rfl

theorem stay {s' : PthreadSim} (calm : Calm s.scheduler s'.scheduler)
    (ids : s'.newThreadId = s.newThreadId) (same : s'.held = s.held) : s'.view = s.view := by
  unfold view
  rw [calm.live, funext calm.active, calm.nactive, ids, same]

theorem fall {t : Nat} {p : Place} (turned : Turned t false s.scheduler s'.scheduler)
    (ids : s'.newThreadId = s.newThreadId) (put : s'.held = s.held + place t p) :
    Steps strict s.view s'.view := by
  have step : Step strict s.view _ := .block s.view t p turned.mem turned.before
  refine .single ?_
  convert step using 1
  unfold view
  rw [turned.live, turned.active, turned.nactive, ids, put]
  rfl

theorem rise {t : Nat} {p : Place} (turned : Turned t true s.scheduler s'.scheduler)
    (ids : s'.newThreadId = s.newThreadId) (taken : s.held = s'.held + place t p) :
    Steps strict s.view s'.view := by
  have step : Step strict s.view _ := .wake s.view t p s'.held turned.mem turned.before taken
  refine .single ?_
  convert step using 1
  unfold view
  rw [turned.live, turned.active, turned.nactive, ids]
  rfl

theorem requeue_steps {c t m : Nat} {rest : List (Nat × Nat)}
    (queue : s.waiters c = (t, m) :: rest) :
    Steps strict s.view ((s.setWaiters c rest).spin t m).view := by
  have step : Step strict s.view _ :=
    .move s.view t (.cond c) (.mutex m) _ (held_signal queue)
  refine .single ?_
  convert step using 1
  unfold view
  rw [held_spin]
  rfl

theorem leave_steps {t : Nat} {scheduler : Scheduler} (live : t ∈ s.scheduler.live)
    (awake : strict → (s.scheduler.pthreads t).active = true)
    (killed : Killed t s.scheduler scheduler) :
    Steps strict s.view (view { s with scheduler }) := by
  have step : Step strict s.view _ := .leave s.view t live awake
  refine .single ?_
  convert step using 1
  unfold view
  rw [killed.live, funext killed.active, killed.nactive]
  rfl

theorem enter_steps {scheduler : Scheduler} (added : Added s.newThreadId s.scheduler scheduler) :
    Steps strict s.view (view { s with scheduler, newThreadId := s.newThreadId + 1 }) := by
  have fresh : s.newThreadId ∉ Finset.range s.newThreadId := Finset.notMem_range_self
  have step : Step strict s.view _ := .enter s.view s.newThreadId fresh
  refine .single ?_
  convert step using 1
  unfold view
  rw [added.live, added.active, added.nactive, Finset.range_add_one]
  rfl

theorem move_steps (h : Move strict s s') : Steps strict s.view s'.view := by
  cases h with
  | run scheduler calm =>
    have same : (show PthreadSim from { s with scheduler }).view = s.view := stay calm rfl rfl
    exact same ▸ .refl
  | set m x shut => exact .refl
  | spin t m scheduler shut turned => exact fall turned rfl (held_spin s t m)
  | pass m t rest scheduler queue turned => exact rise turned rfl (held_pass queue)
  | wait t c m scheduler turned => exact fall turned rfl (held_wait s c t m)
  | signal c t m rest scheduler queue turned => exact rise turned rfl (held_signal queue)
  | requeue c t m rest queue shut => exact requeue_steps queue
  | arrive t b x scheduler is turned => exact fall turned rfl (held_arrive is)
  | release t b x rest scheduler is turned => exact rise turned rfl (held_release is)
  | drop t b x rest is loose =>
    exact .single (.drop s.view t (.barrier b) _ (held_release is) loose)
  | barrier b x old new =>
    have stays : (s.setBarrier b x).view = s.view := stay (.refl _) rfl (held_emptied old new)
    rw [stays]
  | join joiner t x scheduler is alone ne idle turned =>
    exact fall turned rfl (held_join (some { x with joiner := some joiner }) idle)
  | joined joiner t x scheduler is joins waits turned => exact rise turned rfl (held_joined waits)
  | joinee t x old new => exact .refl
  | cancels t x => exact .refl
  | leave t scheduler live awake killed => exact leave_steps live awake killed
  | enter scheduler added => exact enter_steps added

theorem moves_steps (h : Moves strict s s') : Steps strict s.view s'.view := by
  induction h with
  | refl => exact .refl
  | tail moves move ih => exact ih.trans (move_steps move)

/-- The program cancels no thread, and initializes or destroys nothing that is held or waited on. -/
def Orderly (s : PthreadSim) : SimCall → Prop
  | .mutexInit m _ => (s.mutexes m).count = 0 ∧ s.spinning m = []
  | .barrierInit b _ | .barrierDestroy b => s.barrierWaiters b = []
  | .cancel _ | .kill _ _ => False
  | _ => True

/-- No count of a recursive mutex wraps, and a barrier is not complete with a thread that waits at
it. -/
def Regular (s : PthreadSim) : SimCall → Prop
  | .mutexLock m | .mutexTrylock m => s.Countable s.current m
  | .condSignal c => ∀ w, (s.waiters c).head? = some w → s.Countable w.1 w.2
  | .condBroadcast c => ∀ w ∈ s.waiters c, s.Countable w.1 w.2
  | .barrierWait b => ∀ x, s.barriers b = some x → x.waiters.length + 1 = x.numParticipants →
    s.current ∉ x.waiters
  | _ => True

theorem call_moves (apart : s.view.Apart) {c : SimCall}
    (right : strict → s.Orderly c ∧ s.Regular c) :
    Meets (fun _ => True) (fun r => Moves strict s r.1) (s.call c) := by
  cases c with
  | create hasStartctxt mapped joinable => exact create_moves hasStartctxt mapped joinable
  | mutexInit m kind => exact mutexInit_moves kind fun strictly => (right strictly).1.2
  | mutexLock m => exact mutexLock_moves fun strictly => (right strictly).2
  | mutexTrylock m => exact mutexTrylock_moves fun strictly => (right strictly).2
  | mutexUnlock m => exact mutexUnlock_moves m
  | condWait c m => exact condWait_moves c m
  | condSignal c => exact condSignal_moves fun strictly => (right strictly).2
  | condBroadcast c =>
    refine condBroadcast_moves fun strictly => ⟨?_, (right strictly).2⟩
    exact List.nodup_iff_count_le_one.mpr fun t => (apart.once t).le_one (.cond c)
  | barrierInit b num => exact barrierInit_moves num fun strictly => (right strictly).1
  | barrierDestroy b => exact barrierDestroy_moves fun strictly => (right strictly).1
  | barrierWait b => exact barrierWait_moves fun strictly => (right strictly).2
  | join t => exact join_moves t
  | detach t => exact detach_moves t
  | exit => exact exit_moves
  | cancel t => exact cancel_moves (fun strictly => (right strictly).1) t
  | kill t signo => exact kill_moves (fun strictly => (right strictly).1) t signo
  | testcancel => exact testcancel_moves
  | setcancelstate enabled => exact setcancelstate_moves enabled
  | setcanceltype asynchronous => exact setcanceltype_moves asynchronous
  | processIns hasContext x => exact schedule_moves (processIns_calm hasContext x)
  | setStack stackPtr => exact schedule_moves (setStack_calm stackPtr)
  | mark skip spin =>
    show Meets _ _ (s.onceExecuted fun s => s.schedule (s.scheduler.mark skip spin))
    exact onceExecuted_moves fun _ => schedule_moves (mark_calm skip spin)

inductive Run (allowed : PthreadSim → SimCall → Prop) (s : PthreadSim) : PthreadSim → Prop
  | refl : Run allowed s s
  | call {s₁ s₂ : PthreadSim} {c : SimCall} {e : Nat} (run : Run allowed s s₁)
    (right : allowed s₁ c) (ok : s₁.call c = .ok (s₂, e)) : Run allowed s s₂

theorem Run.trans {allowed : PthreadSim → SimCall → Prop} {s₁ s₂ s₃ : PthreadSim}
    (h : Run allowed s₁ s₂) (h' : Run allowed s₂ s₃) : Run allowed s₁ s₃ := by
  induction h' with
  | refl => exact h
  | call run right ok ih => exact ih.call right ok

def follow (s : PthreadSim) : List SimCall → Except Stop PthreadSim
  | [] => return s
  | c :: calls => do
    let (s, _) ← s.call c
    s.follow calls

theorem Run.follow {allowed : PthreadSim → SimCall → Prop} {s₀ : PthreadSim} {calls : List SimCall}
    (right : ∀ s, ∀ c ∈ calls, allowed s c) (run : Run allowed s₀ s) (h : s.follow calls = .ok s') :
    Run allowed s₀ s' := by
  induction calls generalizing s with
  | nil =>
    cases h
    exact run
  | cons c calls ih =>
    unfold PthreadSim.follow at h
    cases hs : s.call c with
    | error e => simp [hs, bind, Except.bind] at h
    | ok r =>
      rw [hs] at h
      exact ih (fun s c hc => right s c (List.mem_cons_of_mem _ hc))
        (run.call (right s c List.mem_cons_self) hs) h

/-- Two hthreads, of which the simulator resumes the second one first -/
def pair : PthreadSim :=
  start 2 (fun n => { slots := 100, hthread := if n < 13 then 1 else 0 }) false
    fun m => if m = 8 then .recursive else .fast

end McSim.Pthread.PthreadSim
