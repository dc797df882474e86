import McSim.Pthread.Sim
import McSim.Pthread.SchedulerThreads
import Mathlib.Logic.Relation

/-! The calls of the emulation as sequences of moves.
A move changes the place of one thread at most, together with what the scheduler knows of it.
`strict` forbids what a program with a right use of its mutexes and barriers does not do. -/

namespace McSim.Pthread.PthreadSim

open Contract Scheduler

variable {s s' : PthreadSim} {strict : Prop}

/-- The first thread in the queue of a mutex has got it. -/
def handOver (s : PthreadSim) (m t : Nat) (rest : List Nat) : PthreadSim :=
  { (s.setSpinning m rest).setMutex m { s.mutexes m with count := 1, owner := asOwner t } with
    passed := Function.update s.passed m (s.passed m ++ [t]) }

def barrierWaiters (s : PthreadSim) (b : Nat) : List Nat :=
  match s.barriers b with
  | none => []
  | some x => x.waiters

def joinerOf (s : PthreadSim) (t : Nat) : Option Nat := (s.joinables t).bind PthreadJoinee.joiner

inductive Move (strict : Prop) (s : PthreadSim) : PthreadSim → Prop
  | run (scheduler : Scheduler) (calm : Calm s.scheduler scheduler) :
      Move strict s { s with scheduler }
  | set (m : Nat) (x : Mutex) (shut : strict → x.count = 0 → s.spinning m = []) :
    Move strict s (s.setMutex m x)
  | spin (t m : Nat) (scheduler : Scheduler) (shut : (s.mutexes m).count ≠ 0)
    (turned : Turned t false s.scheduler scheduler) : Move strict s { s.spin t m with scheduler }
  | pass (m t : Nat) (rest : List Nat) (scheduler : Scheduler) (queue : s.spinning m = t :: rest)
    (turned : Turned t true s.scheduler scheduler) :
      Move strict s { s.handOver m t rest with scheduler }
  | wait (t c m : Nat) (scheduler : Scheduler) (turned : Turned t false s.scheduler scheduler) :
    Move strict s { s.setWaiters c (s.waiters c ++ [(t, m)]) with scheduler }
  | signal (c t m : Nat) (rest : List (Nat × Nat)) (scheduler : Scheduler)
    (queue : s.waiters c = (t, m) :: rest) (turned : Turned t true s.scheduler scheduler) :
    Move strict s { s.setWaiters c rest with scheduler }
  | requeue (c t m : Nat) (rest : List (Nat × Nat)) (queue : s.waiters c = (t, m) :: rest)
    (shut : (s.mutexes m).count ≠ 0) : Move strict s ((s.setWaiters c rest).spin t m)
  | arrive (t b : Nat) (x : BarrierWaiters) (scheduler : Scheduler) (is : s.barriers b = some x)
    (turned : Turned t false s.scheduler scheduler) :
    Move strict s { s.setBarrier b (some { x with waiters := x.waiters ++ [t] }) with scheduler }
  | release (t b : Nat) (x : BarrierWaiters) (rest : List Nat) (scheduler : Scheduler)
    (is : s.barriers b = some { x with waiters := t :: rest })
    (turned : Turned t true s.scheduler scheduler) :
    Move strict s { s.setBarrier b (some { x with waiters := rest }) with scheduler }
  | drop (t b : Nat) (x : BarrierWaiters) (rest : List Nat)
    (is : s.barriers b = some { x with waiters := t :: rest }) (loose : ¬ strict) :
    Move strict s (s.setBarrier b (some { x with waiters := rest }))
  | barrier (b : Nat) (x : Option BarrierWaiters) (old : s.barrierWaiters b = [])
    (new : ∀ y, x = some y → y.waiters = []) : Move strict s (s.setBarrier b x)
  | join (joiner t : Nat) (x : PthreadJoinee) (scheduler : Scheduler) (is : s.joinables t = some x)
    (alone : x.joiner = none) (ne : joiner ≠ t) (idle : s.joinings joiner = none)
    (turned : Turned joiner false s.scheduler scheduler) :
    Move strict s { (s.setJoinee t (some { x with joiner := some joiner })).setJoining joiner
      (some t) with scheduler }
  | joined (joiner t : Nat) (x : PthreadJoinee) (scheduler : Scheduler)
    (is : s.joinables t = some x) (joins : x.joiner = some joiner)
    (waits : s.joinings joiner = some t)
    (turned : Turned joiner true s.scheduler scheduler) :
    Move strict s { (s.setJoining joiner none).setJoinee t none with scheduler }
  | joinee (t : Nat) (x : Option PthreadJoinee)
    (old : ∀ y, s.joinables t = some y → y.joiner = none)
    (new : ∀ y, x = some y → y.joiner = none) : Move strict s (s.setJoinee t x)
  | cancels (t : Nat) (x : Option PthreadCancel) : Move strict s (s.setCancel t x)
  | leave (t : Nat) (scheduler : Scheduler) (live : t ∈ s.scheduler.live)
    (awake : strict → (s.scheduler.pthreads t).active = true)
    (killed : Killed t s.scheduler scheduler) :
    Move strict s { s with scheduler }
  | enter (scheduler : Scheduler) (added : Added s.newThreadId s.scheduler scheduler) :
    Move strict s { s with scheduler, newThreadId := s.newThreadId + 1 }

abbrev Moves (strict : Prop) : PthreadSim → PthreadSim → Prop := Relation.ReflTransGen (Move strict)

theorem Moves.then {α : Type} {f : α → PthreadSim} {x : Except Stop α} (h : Moves strict s s')
    (hx : Meets (fun _ => True) (fun a => Moves strict s' (f a)) x) :
    Meets (fun _ => True) (fun a => Moves strict s (f a)) x :=
  hx.mono (fun _ ha => h.trans ha) fun _ h => h

theorem blockThread_meets (t barrier nPart : Nat) :
    Meets (fun _ => True)
      (fun r => ∃ scheduler, r = { s with scheduler } ∧ Turned t false s.scheduler scheduler)
      (s.blockThread t barrier nPart) := by
  unfold blockThread
  simp only [meets_bind]
  exact (blockThread_turned t barrier nPart).mono (fun r h => ⟨r, rfl, h⟩) fun _ h => h

theorem unblockThread_meets (t : Nat) :
    Meets (fun _ => True) (fun r => ∃ scheduler, r = { s with scheduler } ∧
      scheduler.current = s.current ∧ Turned t true s.scheduler scheduler) (s.unblockThread t) := by
  unfold unblockThread
  simp only [meets_bind]
  exact (unblockThread_turned t).mono (fun r h => ⟨r, rfl, h⟩) fun _ h => h

theorem addSynchInstruction_meets (islock isunlock : Bool) (barrier nPart : Nat) :
    Meets (fun _ => True) (fun r => ∃ scheduler, r = { s with scheduler } ∧
      Still s.scheduler scheduler)
      (s.addSynchInstruction islock isunlock barrier nPart) := by
  unfold addSynchInstruction
  simp only [meets_bind]
  exact (addSynchInstruction_still _ _ _ _ _).mono (fun r h => ⟨r, rfl, h⟩) fun _ h => h

theorem schedule_moves {x : Except Stop Scheduler}
    (h : Meets (fun _ => True) (Calm s.scheduler) x) :
    Meets (fun _ => True) (fun r => Moves strict s r.1) (s.schedule x) := by
  unfold schedule
  simp only [meets_bind]
  exact h.mono (fun r calm => .single (.run r calm)) fun _ h => h

theorem onceExecuted_eq {call : PthreadSim → Except Stop (PthreadSim × Nat)}
    (live : s.current ∈ s.scheduler.live)
    (executed : (s.scheduler.pthreads s.current).executed = true) :
    s.onceExecuted call = call s := by
  unfold onceExecuted
  rw [if_neg (not_not.mpr live), if_neg (by rw [executed]; exact nofun)]

theorem onceExecuted_moves {call : PthreadSim → Except Stop (PthreadSim × Nat)}
    (h : s.current ∈ s.scheduler.live →
      Meets (fun _ => True) (fun r => Moves strict s r.1) (call s)) :
    Meets (fun _ => True) (fun r => Moves strict s r.1) (s.onceExecuted call) := by
  unfold onceExecuted
  dsimp only
  split
  · trivial
  · rename_i live
    split
    · exact .single (.run _ (Still.toCalm (setThread_still s.current _ rfl)))
    · exact h (not_not.mp live)

/-- A thread that locks the mutex again does not make its count wrap. -/
def Countable (s : PthreadSim) (t m : Nat) : Prop :=
  (s.mutexes m).kind = .recursive → (s.mutexes m).owner = t → (s.mutexes m).count ≠ 0xffffffff

theorem setMutex_self (s : PthreadSim) (m : Nat) (x : Mutex) : (s.setMutex m x).mutexes m = x := by
  simp [setMutex]

theorem setMutex_of_ne (s : PthreadSim) {m m' : Nat} (ne : m' ≠ m) (x : Mutex) :
    (s.setMutex m x).mutexes m' = s.mutexes m' := by
  simp [setMutex, ne]

theorem countable_after {t u m m' : Nat} {x : Mutex} (h : s.Countable u m')
    (mine : x.count = 1 ∨ x.owner = t) (ne : u ≠ t) : (s.setMutex m x).Countable u m' := by
  unfold Countable
  by_cases same : m' = m
  · subst same
    rw [setMutex_self]
    intro _ owner
    rcases mine with one | mine
    · rw [one]
      decide
    · exact absurd (owner.symm.trans mine) ne
  · rw [setMutex_of_ne s same]
    exact h

theorem lock_meets (t m : Nat) (trylock : Bool) :
    Meets (fun _ => True) (fun r =>
      (r.2 = 0 ∧ ∃ x : Mutex, r.1 = s.setMutex m x ∧ (x.count = 1 ∨ x.owner = t) ∧
        (s.Countable t m → x.count ≠ 0)) ∨
      (r.2 ≠ 0 ∧ (s.mutexes m).count ≠ 0 ∧ r.1 = if trylock then s else s.spin t m))
      (s.lock t m trylock) := by
  unfold lock
  by_cases null : m = 0
  · rw [if_pos null]
    trivial
  by_cases free : (s.mutexes m).count = 0
  · rw [if_neg null, if_pos free]
    exact .inl ⟨rfl, _, rfl, .inl rfl, fun _ => (by decide : (1 : UInt32) ≠ 0)⟩
  by_cases owner : (s.mutexes m).owner = t
  · rw [if_neg null, if_neg free, if_pos owner]
    cases kind : (s.mutexes m).kind with
    | fast => exact .inr ⟨nofun, free, rfl⟩
    | errorcheck => exact .inr ⟨nofun, free, rfl⟩
    | recursive =>
      refine .inl ⟨rfl, _, rfl, .inr owner, fun countable wraps => ?_⟩
      have full := countable kind owner
      dsimp only at wraps
      grind
  · rw [if_neg null, if_neg free, if_neg owner]
    exact .inr ⟨nofun, free, rfl⟩

theorem passOn_meets {m : Nat} (free : (s.mutexes m).count = 0) :
    Meets (fun _ => True) (fun r => s.spinning m = [] ∧ r = (s, none) ∨
      ∃ t rest, s.spinning m = t :: rest ∧ r = (s.handOver m t rest, some t)) (s.passOn m) := by
  unfold passOn
  split
  · rename_i empty
    exact .inl ⟨empty, rfl⟩
  · rename_i t rest queue
    unfold lock
    dsimp only
    split
    · trivial
    · have unlocked : (({ s.setSpinning m rest with
          passed := Function.update s.passed m (s.passed m ++ [t]) } : PthreadSim).mutexes
            m).count = 0 := free
      simp only [meets_bind, if_pos unlocked]
      exact .inr ⟨t, rest, queue, rfl⟩

theorem unlock_meets (t m : Nat) :
    Meets (fun _ => True) (fun r =>
      (r.2.1 = none ∧ (r.1 = s ∨ ∃ x : Mutex, r.1 = s.setMutex m x ∧
        (x.count = 0 → s.spinning m = []))) ∨
      ∃ u rest, s.spinning m = u :: rest ∧ r.1 = s.handOver m u rest ∧ r.2.1 = some u)
      (s.unlock t m) := by
  have passes (x : Mutex) (free : x.count = 0) (kind : x.kind = (s.mutexes m).kind) :
      Meets (fun _ => True) (fun r =>
        (r.2 = none ∧ (r.1 = s ∨ ∃ x : Mutex, r.1 = s.setMutex m x ∧
          (x.count = 0 → s.spinning m = []))) ∨
        ∃ u rest, s.spinning m = u :: rest ∧ r.1 = s.handOver m u rest ∧ r.2 = some u)
        ((s.setMutex m x).passOn m) := by
    have unlocked : ((s.setMutex m x).mutexes m).count = 0 :=
      (congrArg Mutex.count (setMutex_self s m x)).trans free
    refine (passOn_meets unlocked).mono (fun r h => ?_) fun _ h => h
    rcases h with ⟨empty, rfl⟩ | ⟨u, rest, queue, rfl⟩
    · exact .inl ⟨rfl, .inr ⟨x, rfl, fun _ => empty⟩⟩
    · refine .inr ⟨u, rest, queue, ?_, rfl⟩
      simp [handOver, setMutex, setSpinning, kind]
  unfold unlock
  dsimp only
  split
  · trivial
  · split
    · exact .inl ⟨rfl, .inl rfl⟩
    · split
      · split
        · trivial
        · split
          · rename_i left
            exact .inl ⟨rfl, .inr ⟨_, rfl, fun none => absurd none left⟩⟩
          · rename_i last
            simp only [meets_bind]
            exact Meets.mono (passes _ (not_not.mp last) rfl) (fun r h => h) fun _ h => h
      · simp only [meets_bind]
        exact Meets.mono (passes _ rfl rfl) (fun r h => h) fun _ h => h

theorem mutexLock_moves {m : Nat} (countable : strict → s.Countable s.current m) :
    Meets (fun _ => True) (fun r => Moves strict s r.1) (s.mutexLock m) := by
  refine onceExecuted_moves fun _ => ?_
  simp only [meets_bind]
  refine (addSynchInstruction_meets true false 0 0).mono (fun r h => ?_) fun _ h => h
  obtain ⟨scheduler, rfl, still⟩ := h
  have heard : Moves strict s { s with scheduler } := .single (.run scheduler still.toCalm)
  have same : (PthreadSim.current { s with scheduler }) = s.current := still.current
  refine (lock_meets _ m false).mono (fun r h => ?_) fun _ h => h
  rcases h with ⟨free, x, has, -, right⟩ | ⟨blocked, shut, waits⟩
  · rw [if_pos free, has]
    refine heard.tail (.set m x fun strictly none => absurd none (right ?_))
    exact same ▸ countable strictly
  · rw [if_neg blocked, waits]
    simp only [meets_bind]
    refine (blockThread_meets _ 0 0).mono (fun r' h' => ?_) fun _ h => h
    obtain ⟨scheduler', rfl, turned⟩ := h'
    exact heard.tail (.spin _ m scheduler' shut turned)

theorem mutexTrylock_moves {m : Nat} (countable : strict → s.Countable s.current m) :
    Meets (fun _ => True) (fun r => Moves strict s r.1) (s.mutexTrylock m) := by
  refine onceExecuted_moves fun _ => ?_
  refine (lock_meets s.current m true).mono (fun r h => ?_) fun _ h => h
  rcases h with ⟨free, x, has, -, right⟩ | ⟨blocked, shut, waits⟩
  · rw [has]
    exact .single (.set m x fun strictly none => absurd none (right (countable strictly)))
  · rw [waits]
    exact .refl

theorem mutexUnlock_moves (m : Nat) :
    Meets (fun _ => True) (fun r => Moves strict s r.1) (s.mutexUnlock m) := by
  refine onceExecuted_moves fun _ => ?_
  simp only [meets_bind]
  refine (addSynchInstruction_meets false true 0 0).mono (fun r h => ?_) fun _ h => h
  obtain ⟨scheduler, rfl, still⟩ := h
  have heard : Moves strict s { s with scheduler } := .single (.run scheduler still.toCalm)
  refine (unlock_meets _ m).mono (fun r h => ?_) fun _ h => h
  rcases h with ⟨none, stays | ⟨x, has, right⟩⟩ | ⟨u, rest, queue, handed, some⟩
  · rw [none, stays]
    exact heard
  · rw [none, has]
    exact heard.tail (.set m x fun _ => right)
  · rw [some, handed]
    refine (unblockThread_meets u).mono (fun r' h' => ?_) fun _ h => h
    obtain ⟨scheduler', rfl, -, turned⟩ := h'
    exact heard.tail (.pass m u rest scheduler' queue turned)

theorem mutexInit_moves {m : Nat} (kind : MutexKind) (idle : strict → s.spinning m = []) :
    Meets (fun _ => True) (fun r => Moves strict s r.1) (s.mutexInit m kind) := by
  unfold mutexInit
  split
  · trivial
  · exact .single (.set m _ fun strictly _ => idle strictly)

theorem condWait_moves (c m : Nat) :
    Meets (fun _ => True) (fun r => Moves strict s r.1) (s.condWait c m) := by
  refine onceExecuted_moves fun _ => ?_
  simp only [meets_bind]
  have unlocks : Meets (fun _ => True) (fun r => Moves strict s r.1) (s.mutexUnlock m) :=
    mutexUnlock_moves m
  refine unlocks.mono (fun r h => ?_) fun _ h => h
  refine (blockThread_meets s.current 0 0).mono (fun r' h' => ?_) fun _ h => h
  obtain ⟨scheduler, rfl, turned⟩ := h'
  exact h.tail (.wait s.current c m scheduler turned)

theorem relock_moves {c t m : Nat} {rest : List (Nat × Nat)} (queue : s.waiters c = (t, m) :: rest)
    (countable : strict → s.Countable t m) :
    Meets (fun _ => True)
      (fun r => Moves strict s r ∧ r.waiters c = rest ∧
        ∀ u m', u ≠ t → s.Countable u m' → r.Countable u m')
      ((s.setWaiters c rest).relock t m) := by
  have left : (s.setWaiters c rest).waiters c = rest := by simp [setWaiters]
  unfold relock
  simp only [meets_bind]
  refine (lock_meets t m false).mono (fun r h => ?_) fun _ h => h
  rcases h with ⟨free, x, has, mine, right⟩ | ⟨blocked, shut, waits⟩
  · rw [if_pos free, has]
    refine (unblockThread_meets t).mono (fun r' h' => ?_) fun _ h => h
    obtain ⟨scheduler, rfl, -, turned⟩ := h'
    have locks : Move strict s (s.setMutex m x) :=
      .set m x fun strictly none => absurd none (right (countable strictly))
    refine ⟨.tail (.single locks) (.signal c t m rest scheduler queue turned), left,
      fun u m' ne h => ?_⟩
    exact countable_after h mine ne
  · rw [if_neg blocked, waits]
    exact ⟨.single (.requeue c t m rest queue shut), left, fun u m' _ h => h⟩

theorem condSignal_moves {c : Nat}
    (countable : strict → ∀ w, (s.waiters c).head? = some w → s.Countable w.1 w.2) :
    Meets (fun _ => True) (fun r => Moves strict s r.1) (s.condSignal c) := by
  refine onceExecuted_moves fun _ => ?_
  split
  · exact .refl
  · rename_i t m rest queue
    simp only [meets_bind]
    have first (strictly : strict) : s.Countable t m :=
      countable strictly (t, m) (by rw [queue]; rfl)
    exact (relock_moves queue first).mono (fun r h => h.1) fun _ h => h

theorem relockAll_moves {c : Nat} : ∀ {ws : List (Nat × Nat)} {s : PthreadSim}, s.waiters c = ws →
    (strict → (ws.map Prod.fst).Nodup ∧ ∀ w ∈ ws, s.Countable w.1 w.2) →
    Meets (fun _ => True) (Moves strict s) (relockAll c ws s)
  | [], _, _, _ => Relation.ReflTransGen.refl
  | (t, m) :: rest, s, queue, right => by
    unfold relockAll
    simp only [meets_bind]
    have first (strictly : strict) : s.Countable t m := (right strictly).2 (t, m) List.mem_cons_self
    refine (relock_moves queue first).mono (fun r h => ?_) fun _ h => h
    refine h.1.then (relockAll_moves h.2.1 fun strictly => ?_)
    obtain ⟨nodup, all⟩ := right strictly
    rw [List.map_cons, List.nodup_cons] at nodup
    refine ⟨nodup.2, fun w hw => ?_⟩
    have mem : w.1 ∈ rest.map Prod.fst := List.mem_map_of_mem hw
    have ne : w.1 ≠ t := fun same => nodup.1 (same ▸ mem)
    exact h.2.2 w.1 w.2 ne (all w (List.mem_cons_of_mem _ hw))

theorem condBroadcast_moves {c : Nat}
    (right : strict → ((s.waiters c).map Prod.fst).Nodup ∧ ∀ w ∈ s.waiters c, s.Countable w.1 w.2) :
    Meets (fun _ => True) (fun r => Moves strict s r.1) (s.condBroadcast c) := by
  refine onceExecuted_moves fun _ => ?_
  simp only [meets_bind]
  exact (relockAll_moves rfl right).mono (fun r h => h) fun _ h => h

theorem setBarrier_self (s : PthreadSim) (b : Nat) (x : Option BarrierWaiters) :
    (s.setBarrier b x).barriers b = x := by
  simp [setBarrier]

theorem setBarrier_twice (s : PthreadSim) (b : Nat) (x y : Option BarrierWaiters) :
    (s.setBarrier b x).setBarrier b y = s.setBarrier b y := by
  simp [setBarrier]

theorem setBarrier_same {b : Nat} {x : Option BarrierWaiters} (h : s.barriers b = x) :
    s.setBarrier b x = s := by
  subst h
  simp [setBarrier]

theorem barrierWaiters_of {b : Nat} {x : BarrierWaiters} (h : s.barriers b = some x) :
    s.barrierWaiters b = x.waiters := by
  unfold barrierWaiters
  rw [h]

theorem releaseAll_moves {b last : Nat} {x : BarrierWaiters} : ∀ {ws : List Nat} {s : PthreadSim},
    s.barriers b = some { x with waiters := ws } → (strict → last ∉ ws) →
    Meets (fun _ => True) (Moves strict s)
      (releaseAll b x last (ws ++ [last])
        (s.setBarrier b (some { x with waiters := ws ++ [last] })))
  | [], s, is, _ => by
    simp only [List.nil_append, releaseAll, setBarrier_twice, setBarrier_same is,
      if_true, meets_bind, meets_pure]
    exact .refl
  | t :: ws, s, is, others => by
    simp only [List.cons_append, releaseAll, setBarrier_twice]
    have rest : (s.setBarrier b (some { x with waiters := ws })).barriers b =
        some { x with waiters := ws } := setBarrier_self s b _
    have later (strictly : strict) : last ∉ ws :=
      fun mem => others strictly (List.mem_cons_of_mem t mem)
    split
    · rename_i same
      have dropped : Move strict s (s.setBarrier b (some { x with waiters := ws })) :=
        .drop t b x ws is fun strictly => others strictly (same ▸ List.mem_cons_self)
      have go := releaseAll_moves rest later
      rw [setBarrier_twice] at go
      exact (Moves.then (.single dropped) go)
    · simp only [meets_bind]
      refine (unblockThread_meets t).mono (fun r h => ?_) fun _ h => h
      obtain ⟨scheduler, rfl, -, turned⟩ := h
      have go := releaseAll_moves
        (s := { s.setBarrier b (some { x with waiters := ws }) with scheduler }) rest later
      have again : ({ s.setBarrier b (some { x with waiters := ws }) with scheduler } :
        PthreadSim).setBarrier
          b (some { x with waiters := ws ++ [last] }) =
          { s.setBarrier b (some { x with waiters := ws ++ [last] }) with scheduler } :=
        congrArg (fun s : PthreadSim => { s with scheduler }) (setBarrier_twice s b _ _)
      rw [again] at go
      exact Moves.then (.single (.release t b x ws scheduler is turned)) go

theorem barrierWait_moves {b : Nat} (others : strict → ∀ x, s.barriers b = some x →
      x.waiters.length + 1 = x.numParticipants → s.current ∉ x.waiters) :
    Meets (fun _ => True) (fun r => Moves strict s r.1) (s.barrierWait b) := by
  refine onceExecuted_moves fun _ => ?_
  dsimp only
  split
  · trivial
  · rename_i x is
    split
    · rename_i last
      rw [List.length_append, List.length_singleton] at last
      simp only [meets_bind]
      refine (addSynchInstruction_meets false false b _).mono (fun r h => ?_) fun _ h => h
      obtain ⟨scheduler, rfl, still⟩ := h
      have heard : Moves strict s { s with scheduler } := .single (.run scheduler still.toCalm)
      have go := releaseAll_moves (s := { s with scheduler })
        (x := { x with waiters := x.waiters ++ [s.current] }) is fun strictly =>
          others strictly x is last
      exact (heard.then go).mono (fun r h => h) fun _ h => h
    · simp only [meets_bind]
      refine (blockThread_meets s.current b _).mono (fun r h => ?_) fun _ h => h
      obtain ⟨scheduler, rfl, turned⟩ := h
      exact .single (.arrive s.current b x scheduler is turned)

theorem dropAll {b : Nat} {x : BarrierWaiters} (loose : ¬ strict) :
    ∀ {ws : List Nat} {s : PthreadSim}, s.barriers b = some { x with waiters := ws } →
    Moves strict s (s.setBarrier b (some { x with waiters := [] }))
  | [], s, is => by
    rw [setBarrier_same is]
  | t :: ws, s, is => by
    have go := dropAll loose (setBarrier_self s b (some { x with waiters := ws }))
    rw [setBarrier_twice] at go
    exact .trans (.single (.drop t b x ws is loose)) go

theorem setBarrier_moves {b : Nat} {x : Option BarrierWaiters}
    (empty : strict → s.barrierWaiters b = []) (new : ∀ y, x = some y → y.waiters = []) :
      Moves strict s (s.setBarrier b x) := by
  by_cases old : s.barrierWaiters b = []
  · exact .single (.barrier b x old new)
  · have loose : ¬ strict := fun strictly => old (empty strictly)
    unfold barrierWaiters at old
    split at old
    · exact absurd rfl old
    · rename_i y is
      have go := dropAll (x := y) loose is
      refine setBarrier_twice s b (some { y with waiters := [] }) x ▸ go.tail (.barrier b x ?_ new)
      exact barrierWaiters_of (setBarrier_self s b _)

theorem barrierInit_moves {b : Nat} (num : Nat) (empty : strict → s.barrierWaiters b = []) :
    Meets (fun _ => True) (fun r => Moves strict s r.1) (s.barrierInit b num) := by
  refine onceExecuted_moves fun _ => setBarrier_moves empty fun y hy => ?_
  rw [← Option.some.inj hy]

theorem barrierDestroy_moves {b : Nat} (empty : strict → s.barrierWaiters b = []) :
    Meets (fun _ => True) (fun r => Moves strict s r.1) (s.barrierDestroy b) := by
  refine onceExecuted_moves fun _ => ?_
  split
  · trivial
  · exact setBarrier_moves empty nofun

theorem joinKill_meets (t : Nat) :
    Meets (fun _ => True) (fun r =>
      (r.2 = none ∧ s.joinerOf t = none ∧
        (r.1 = s ∨ ∃ x : PthreadJoinee, r.1 = s.setJoinee t (some x) ∧ x.joiner = none)) ∨
      ∃ joiner x, s.joinables t = some x ∧ x.joiner = some joiner ∧ s.joinings joiner = some t ∧
        r = ((s.setJoining joiner none).setJoinee t none, some joiner)) (s.joinKill t) := by
  unfold joinKill joinerOf
  split
  · rename_i unknown
    exact .inl ⟨rfl, by rw [unknown]; rfl, .inl rfl⟩
  · rename_i x is
    split
    · rename_i joiner joins
      split
      · rename_i waits
        exact .inr ⟨joiner, x, is, joins, waits, rfl⟩
      · trivial
    · rename_i alone
      exact .inl ⟨rfl, by rw [is]; exact alone, .inr ⟨_, rfl, alone⟩⟩

theorem leave_moves {t : Nat} (live : t ∈ s.scheduler.live) (mine : strict → t = s.current) :
    Meets (fun _ => True) (Moves strict s)
      (if (s.cancels t).isNone then .error .assertion
      else s.scheduler.killThread t >>= fun scheduler =>
        pure { s.setCancel t none with scheduler }) := by
  split
  · trivial
  · simp only [meets_bind]
    refine (killThread_killed t).mono (fun r h => ?_) fun _ h => h
    have left : Move strict s { s with scheduler := r } :=
      .leave t r live (fun strictly => (h.awake (mine strictly)).2) h
    exact .tail (.single left) (.cancels t none)

theorem endThread_moves {t : Nat} (live : t ∈ s.scheduler.live) (mine : strict → t = s.current) :
    Meets (fun _ => True) (Moves strict s) (s.endThread t) := by
  unfold endThread
  simp only [meets_bind]
  refine (joinKill_meets t).mono (fun r h => ?_) fun _ h => h
  rcases h with ⟨none, alone, stays | ⟨x, has, new⟩⟩ | ⟨joiner, x, is, joins, waits, rfl⟩
  · rw [none, stays]
    exact leave_moves live mine
  · rw [none, has]
    have noted : Move strict s (s.setJoinee t (some x)) := by
      refine .joinee t (some x) (fun y hy => ?_) fun y hy => Option.some.inj hy ▸ new
      unfold joinerOf at alone
      rwa [hy] at alone
    exact Moves.then (.single noted) (leave_moves (s := s.setJoinee t (some x)) live mine)
  · refine (unblockThread_meets joiner).mono (fun r' h' => ?_) fun _ h => h
    obtain ⟨scheduler, rfl, same, turned⟩ := h'
    have woken : Moves strict s { (s.setJoining joiner none).setJoinee t none with scheduler } :=
      .single (.joined joiner t x scheduler is joins waits turned)
    exact woken.then (leave_moves (turned.live.symm ▸ live) fun strictly =>
      (mine strictly).trans same.symm)

theorem exit_moves : Meets (fun _ => True) (fun r => Moves strict s r.1) s.exit := by
  refine onceExecuted_moves fun live => ?_
  simp only [meets_bind]
  have ends : Meets (fun _ => True) (Moves strict s) (s.endThread s.current) :=
    endThread_moves live fun _ => rfl
  refine ends.mono (fun r h => ?_) fun _ h => h
  refine (resumeSimulation_calm true true).mono (fun r' calm => ?_) fun _ h => h
  exact h.tail (.run r' calm)

theorem testcancel_moves : Meets (fun _ => True) (fun r => Moves strict s r.1) s.testcancel := by
  refine onceExecuted_moves fun _ => ?_
  split
  · trivial
  · split
    · exact exit_moves
    · exact .refl

theorem join_moves (t : Nat) : Meets (fun _ => True) (fun r => Moves strict s r.1) (s.join t) := by
  refine onceExecuted_moves fun _ => ?_
  split
  · trivial
  · split
    · exact exit_moves
    · unfold joinThreads
      split
      · trivial
      · rename_i ne
        split
        · trivial
        · rename_i x is
          split
          · trivial
          · rename_i alone
            have free : x.joiner = none := Option.not_isSome_iff_eq_none.mp alone
            split
            · refine .single (.joinee t none (fun y hy => ?_) nofun)
              exact Option.some.inj (is.symm.trans hy) ▸ free
            · split
              · trivial
              · rename_i idle
                simp only [meets_bind, meets_pure, if_true]
                refine (blockThread_meets s.current 0 0).mono (fun r h => ?_) fun _ h => h
                obtain ⟨scheduler, rfl, turned⟩ := h
                exact .single (.join s.current t x scheduler is free ne
                  (Option.not_isSome_iff_eq_none.mp idle) turned)

theorem cancel_moves (loose : ¬ strict) (t : Nat) :
    Meets (fun _ => True) (fun r => Moves strict s r.1) (s.cancel t) := by
  refine onceExecuted_moves fun _ => ?_
  split
  · exact .refl
  · rename_i live
    split
    · trivial
    · split
      · split
        · trivial
        · simp only [meets_bind]
          exact (endThread_moves (not_not.mp live) fun strictly => absurd strictly loose).mono
            (fun r h => h) fun _ h => h
      · split
        · exact .single (.cancels t _)
        · exact .refl

theorem kill_moves (loose : ¬ strict) (t signo : Nat) :
    Meets (fun _ => True) (fun r => Moves strict s r.1) (s.kill t signo) := by
  refine onceExecuted_moves fun _ => ?_
  split
  · split
    · trivial
    · rename_i x _
      simp only [meets_bind]
      have marked : Moves strict s
        (s.setCancel t (some { x with enabled := true, asynchronous := true })) :=
        .single (.cancels t _)
      exact (marked.then (cancel_moves loose t)).mono (fun r h => h) fun _ h => h
  · exact .refl

theorem setcancelstate_moves (enabled : Bool) :
    Meets (fun _ => True) (fun r => Moves strict s r.1) (s.setcancelstate enabled) := by
  unfold setcancelstate
  split
  · trivial
  · exact .single (.cancels _ _)

theorem setcanceltype_moves (asynchronous : Bool) :
    Meets (fun _ => True) (fun r => Moves strict s r.1) (s.setcanceltype asynchronous) := by
  unfold setcanceltype
  split
  · trivial
  · exact .single (.cancels _ _)

theorem detach_moves (t : Nat) :
    Meets (fun _ => True) (fun r => Moves strict s r.1) (s.detach t) := by
  refine onceExecuted_moves fun _ => ?_
  split
  · exact .refl
  · split
    · exact .refl
    · rename_i x is
      split
      · exact .refl
      · rename_i alone
        refine .single (.joinee t none (fun y hy => ?_) nofun)
        exact Option.some.inj (is.symm.trans hy) ▸ Option.not_isSome_iff_eq_none.mp alone

theorem create_moves (hasStartctxt : Bool) (mapped : Nat) (joinable : Bool) :
    Meets (fun _ => True) (fun r => Moves strict s r.1)
      (s.create hasStartctxt mapped joinable) := by
  unfold create
  simp only [meets_bind]
  refine (addThread_added s.newThreadId hasStartctxt mapped).mono (fun r added => ?_) fun _ h => h
  have entered : Moves strict s { s with scheduler := r, newThreadId := s.newThreadId + 1 } :=
    .single (.enter r added)
  split
  · trivial
  · rename_i unknown
    split
    · trivial
    · refine Relation.ReflTransGen.tail ?_ (.cancels s.newThreadId _)
      split
      · rename_i joins
        refine entered.tail (.joinee s.newThreadId _ (fun y hy => ?_) fun y hy => ?_)
        · exact absurd ⟨joins, by rw [hy]; rfl⟩ unknown
        · rw [← Option.some.inj hy]
      · exact entered

end McSim.Pthread.PthreadSim
