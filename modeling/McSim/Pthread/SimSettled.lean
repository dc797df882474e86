import McSim.Pthread.SimQueues

/-! The queues of an orderly program.
As long as no count of a mutex wraps and every barrier is completed by an active thread, those that
wait are the live threads that are not active, each at one place, and a mutex goes to those that
wait for it in the order in which they came. -/

namespace McSim.Pthread.PthreadSim

open Contract Scheduler Waiting

variable {s s' : PthreadSim}

structure Queued (s : PthreadSim) : Prop where
  locked : ∀ m, s.spinning m ≠ [] → (s.mutexes m).count ≠ 0
  fifo : ∀ m, s.queued m = s.passed m ++ s.spinning m

theorem Queued.spin (h : s.Queued) {m : Nat} (t : Nat) (shut : (s.mutexes m).count ≠ 0) :
    (s.spin t m).Queued := by
  refine ⟨fun m' waits => ?_, fun m' => ?_⟩
  · by_cases same : m' = m
    · exact same ▸ shut
    · refine h.locked m' ?_
      simpa [PthreadSim.spin, setSpinning, same] using waits
  · by_cases same : m' = m
    · subst same
      simp [PthreadSim.spin, setSpinning, h.fifo]
    · simpa [PthreadSim.spin, setSpinning, same] using h.fifo m'

theorem Queued.handOver (h : s.Queued) {m t : Nat} {rest : List Nat}
    (queue : s.spinning m = t :: rest) :
    (s.handOver m t rest).Queued := by
  refine ⟨fun m' waits => ?_, fun m' => ?_⟩
  · by_cases same : m' = m
    · subst same
      simp [PthreadSim.handOver, setMutex]
    · have before : s.spinning m' ≠ [] := by
        simpa [PthreadSim.handOver, setMutex, setSpinning, same] using waits
      simpa [PthreadSim.handOver, setMutex, setSpinning, same] using h.locked m' before
  · by_cases same : m' = m
    · subst same
      simp [PthreadSim.handOver, setMutex, setSpinning, h.fifo, queue]
    · simpa [PthreadSim.handOver, setMutex, setSpinning, same] using h.fifo m'

theorem move_queued (h : s.Queued) (move : Move True s s') : s'.Queued := by
  cases move with
  | set m x shut =>
    refine ⟨fun m' waits => ?_, h.fifo⟩
    by_cases same : m' = m
    · subst same
      rw [setMutex_self]
      exact fun none => waits (shut trivial none)
    · rw [setMutex_of_ne s same]
      exact h.locked m' waits
  | spin t m scheduler shut turned => exact ⟨(h.spin t shut).locked, (h.spin t shut).fifo⟩
  | pass m t rest scheduler queue turned =>
    exact ⟨(h.handOver queue).locked, (h.handOver queue).fifo⟩
  | requeue c t m rest queue shut =>
    have left : (s.setWaiters c rest).Queued := ⟨h.locked, h.fifo⟩
    exact left.spin t shut
  | drop t b x rest is loose => exact absurd trivial loose
  | _ => exact ⟨h.locked, h.fifo⟩

/-- There are no more threads than the simulator has hthreads. -/
def Roomy (n : Nat) (s : PthreadSim) : Prop :=
  s.scheduler.pts.numHthreads = n ∧ s.scheduler.live.card ≤ max 1 n

theorem move_roomy {n : Nat} (h : s.Roomy n) (move : Move True s s') : s'.Roomy n := by
  have turned {t : Nat} {isActive : Bool} {scheduler : Scheduler}
      (turned : Turned t isActive s.scheduler scheduler) :
      scheduler.pts.numHthreads = n ∧ scheduler.live.card ≤ max 1 n :=
    ⟨turned.numHthreads.trans h.1, turned.live ▸ h.2⟩
  cases move with
  | run scheduler calm => exact ⟨calm.numHthreads.trans h.1, calm.live ▸ h.2⟩
  | leave t scheduler live awake killed =>
    exact ⟨killed.numHthreads.trans h.1, killed.live ▸ (Finset.card_erase_le).trans h.2⟩
  | enter scheduler added =>
    refine ⟨added.numHthreads.trans h.1, ?_⟩
    show scheduler.live.card ≤ max 1 n
    rw [added.live, Finset.card_insert_of_notMem added.fresh]
    rcases added.room with none | room
    · rw [none]
      exact le_max_left 1 n
    · exact (Nat.succ_le_of_lt (h.1 ▸ room)).trans (le_max_right 1 n)
  | spin _ _ _ _ h => exact turned h
  | pass _ _ _ _ _ h => exact turned h
  | wait _ _ _ _ h => exact turned h
  | signal _ _ _ _ _ _ h => exact turned h
  | arrive _ _ _ _ _ h => exact turned h
  | release _ _ _ _ _ _ h => exact turned h
  | join _ _ _ _ _ _ _ _ h => exact turned h
  | joined _ _ _ _ _ _ _ h => exact turned h
  | _ => exact h

/-- The number of the active threads, where each thread waits, and who gets a mutex next -/
structure Settled (s : PthreadSim) : Prop where
  count : s.scheduler.nactive.toNat =
    (s.scheduler.live.filter fun t => (s.scheduler.pthreads t).active = true).card
  once : ∀ t ∈ s.scheduler.live, (s.scheduler.pthreads t).active = false →
    ∃ p, s.held t = Pi.single p 1
  free : ∀ t, (t ∈ s.scheduler.live → (s.scheduler.pthreads t).active = true) → s.held t = 0
  locked : ∀ m, s.spinning m ≠ [] → (s.mutexes m).count ≠ 0
  fifo : ∀ m, s.queued m = s.passed m ++ s.spinning m

structure Sane (n : Nat) (s : PthreadSim) : Prop where
  sound : s.view.Sound
  queued : s.Queued
  roomy : s.Roomy n

theorem moves_sane {n : Nat} (h : s.Sane n) (moves : Moves True s s') : s'.Sane n := by
  induction moves with
  | refl => exact h
  | tail moves move ih =>
    exact ⟨steps_sound ih.sound (move_steps move), move_queued ih.queued move,
      move_roomy ih.roomy move⟩

theorem toNat_nsmul_one (k : Nat) : (k • (1 : UInt32)).toNat = k % 2 ^ 32 := by
  induction k with
  | zero => rfl
  | succ k ih =>
    rw [succ_nsmul, UInt32.toNat_add, ih]
    exact Nat.mod_add_mod k (2 ^ 32) 1

theorem Sane.settled {n : Nat} (bits : n < 2 ^ 32) (h : s.Sane n) : s.Settled where
  count := by
    have few : s.view.awake.card ≤ max 1 n := (Finset.card_filter_le _ _).trans h.roomy.2
    have counted : s.scheduler.nactive = s.view.awake.card • (1 : UInt32) := h.sound.count
    rw [counted, toNat_nsmul_one, Nat.mod_eq_of_lt (few.trans_lt (max_lt (by decide) bits))]
    rfl
  once := h.sound.kept
  free := h.sound.free
  locked := h.queued.locked
  fifo := h.queued.fifo

theorem start_sane (numHthreads : Nat) (replies : Nat → Reply) (ignoreSkipInstrs : Bool)
    (kinds : Nat → MutexKind) :
    (start numHthreads replies ignoreSkipInstrs kinds).Sane numHthreads := by
  have nobody (t : Nat) : t ∉ (start numHthreads replies ignoreSkipInstrs kinds).view.live := by
    exact Finset.notMem_empty t
  refine ⟨⟨fun t live => absurd live (nobody t), fun t live => absurd live (nobody t),
    fun t _ => ?_, rfl⟩, ⟨fun m waits => absurd rfl waits, fun m => rfl⟩, rfl, Nat.zero_le _⟩
  funext p
  cases p <;> rfl

theorem run_sane {n : Nat} (h : s.Sane n) (run : Run (fun s c => s.Orderly c ∧ s.Regular c) s s') :
    s'.Sane n := by
  induction run with
  | refl => exact h
  | call run right ok ih =>
    have moves : Moves True _ _ := (call_moves ih.sound.apart fun _ => right).of_ok ok
    exact moves_sane ih moves

theorem unlock_hands_over {m error : Nat} (ok : s.mutexUnlock m = .ok (s', error)) :
    s'.spinning m = s.spinning m ∨ ∃ t rest, s.spinning m = t :: rest ∧ s'.spinning m = rest ∧
      s'.mutexes m = { s.mutexes m with count := 1, owner := asOwner t } ∧
      (s'.scheduler.pthreads t).active = true := by
  have post : Meets (fun _ => True) (fun r : PthreadSim × Nat =>
      r.1.spinning m = s.spinning m ∨ ∃ t rest, s.spinning m = t :: rest ∧ r.1.spinning m = rest ∧
        r.1.mutexes m = { s.mutexes m with count := 1, owner := asOwner t } ∧
        (r.1.scheduler.pthreads t).active = true) (s.mutexUnlock m) := by
    unfold mutexUnlock onceExecuted
    dsimp only
    split
    · trivial
    · split
      · exact .inl rfl
      · simp only [meets_bind]
        refine (addSynchInstruction_meets false true 0 0).mono (fun r h => ?_) fun _ h => h
        obtain ⟨scheduler, rfl, -⟩ := h
        refine (unlock_meets _ m).mono (fun r h => ?_) fun _ h => h
        rcases h with ⟨none, stays | ⟨x, has, -⟩⟩ | ⟨u, rest, queue, handed, some⟩
        · rw [none, stays]
          exact .inl rfl
        · rw [none, has]
          exact .inl rfl
        · rw [some, handed]
          refine (unblockThread_meets u).mono (fun r' h' => ?_) fun _ h => h
          obtain ⟨scheduler', rfl, -, turned⟩ := h'
          refine .inr ⟨u, rest, queue, ?_, ?_, ?_⟩
          · simp [handOver, setMutex, setSpinning]
          · simp [handOver, setMutex, setSpinning]
          · simpa using congrFun turned.active u
  exact post.of_ok ok

theorem settled_kept {numHthreads : Nat} (bits : numHthreads < 2 ^ 32) {replies : Nat → Reply}
    {ignoreSkipInstrs : Bool} {kinds : Nat → MutexKind}
    (run : Run (fun s c => s.Orderly c ∧ s.Regular c)
      (start numHthreads replies ignoreSkipInstrs kinds) s) :
    s.Settled ∧ ∀ m s' error, s.mutexUnlock m = .ok (s', error) →
      s'.spinning m = s.spinning m ∨ ∃ t rest, s.spinning m = t :: rest ∧ s'.spinning m = rest ∧
        s'.mutexes m = { s.mutexes m with count := 1, owner := asOwner t } ∧
        (s'.scheduler.pthreads t).active = true :=
  ⟨(run_sane (start_sane numHthreads replies ignoreSkipInstrs kinds) run).settled bits,
    fun _ _ _ ok => unlock_hands_over ok⟩

theorem settled_kept_one_waits :
    ∃ s : PthreadSim, s.waiters 16 = [(0, 24)] ∧ s.scheduler.nactive.toNat = 1 ∧
    s.Settled := by
  have h : Meets (fun _ => False) (fun s : PthreadSim => s.waiters 16 = [(0, 24)] ∧
    s.scheduler.nactive = 1)
      (pair.follow [.create false 0 false, .create false 0 false, .condWait 16 24]) := by
        decide +kernel
  obtain ⟨s, hs, waits, one⟩ := h.result
  have run : Run (fun s c => s.Orderly c ∧ s.Regular c) pair s := by
    refine Run.follow (fun s c hc => ?_) .refl hs
    simp only [List.mem_cons, List.not_mem_nil, or_false] at hc
    rcases hc with rfl | rfl | rfl <;> exact ⟨trivial, trivial⟩
  exact ⟨s, waits, by rw [one]; rfl, (settled_kept (by decide) run).1⟩

theorem relocks {m : Nat} (null : m ≠ 0) (live : s.current ∈ s.scheduler.live)
    (executed : (s.scheduler.pthreads s.current).executed = true)
    (kind : (s.mutexes m).kind = .recursive) (owner : (s.mutexes m).owner = s.current)
    (once : (s.mutexes m).count = 1) :
    ∀ n < 2 ^ 32, Run Orderly s (s.setMutex m { s.mutexes m with count := UInt32.ofNat (n + 1) })
  | 0, _ => by
    have same : s.setMutex m { s.mutexes m with count := UInt32.ofNat (0 + 1) } = s := by
      have back : { s.mutexes m with count := UInt32.ofNat (0 + 1) } = s.mutexes m := by
        rw [show UInt32.ofNat (0 + 1) = (s.mutexes m).count from once.symm]
      rw [back]
      simp [setMutex]
    rw [same]
    exact .refl
  | n + 1, bits => by
    have before := relocks null live executed kind owner once n (Nat.lt_of_succ_lt bits)
    have shut : UInt32.ofNat (n + 1) ≠ 0 := fun none => by
      have wraps := congrArg UInt32.toNat none
      rw [UInt32.toNat_ofNat_of_lt' bits] at wraps
      exact absurd wraps (Nat.succ_ne_zero n)
    refine Run.call (c := .mutexTrylock m) before trivial (e := 0) ?_
    have again : (s.setMutex m { s.mutexes m with count := UInt32.ofNat (n + 1) }).lock
      s.current m true =
        .ok (s.setMutex m { s.mutexes m with count := UInt32.ofNat (n + 1 + 1) }, 0) := by
      unfold lock
      simp only [setMutex_self]
      rw [if_neg null, if_neg shut, if_pos owner, kind]
      simp [setMutex, pure, Except.pure]
    show (s.setMutex m _).onceExecuted (fun s => s.lock s.current m true) = _
    rw [onceExecuted_eq (s := s.setMutex m _) live executed]
    exact again

/-- Of a count of thirty-two bits nothing is left after so many locks, although a thread waits. -/
theorem nested_too_deep : ¬ ∀ (numHthreads : Nat) (replies : Nat → Reply) (ignoreSkipInstrs : Bool)
    (kinds : Nat → MutexKind) (s : PthreadSim), numHthreads < 2 ^ 32 →
    Run Orderly (start numHthreads replies ignoreSkipInstrs kinds) s → s.Settled := by
  intro claim
  have h : Meets (fun _ => False) (fun s : PthreadSim => s.current ∈ s.scheduler.live ∧
      (s.scheduler.pthreads s.current).executed = true ∧ (s.mutexes 8).kind = .recursive ∧
      (s.mutexes 8).owner = s.current ∧ (s.mutexes 8).count = 1 ∧ s.spinning 8 = [1])
      (pair.follow [.create false 0 false, .create false 0 false, .mutexLock 8, .condWait 16 24,
        .condSignal 16, .mutexLock 8, .mutexTrylock 8]) := by decide +kernel
  obtain ⟨s, hs, live, executed, kind, owner, once, waits⟩ := h.result
  have run : Run Orderly pair s := by
    refine Run.follow (fun s c hc => ?_) .refl hs
    simp only [List.mem_cons, List.not_mem_nil, or_false] at hc
    rcases hc with rfl | rfl | rfl | rfl | rfl | rfl | rfl <;> trivial
  have deep := relocks (by decide) live executed kind owner once (2 ^ 32 - 1) (by decide)
  have settled := claim _ _ _ _ _ (by decide) (run.trans deep)
  refine settled.locked 8 ?_ ?_
  · show s.spinning 8 ≠ []
    rw [waits]
    exact List.cons_ne_nil 1 []
  · rw [setMutex_self]
    rfl

end McSim.Pthread.PthreadSim
