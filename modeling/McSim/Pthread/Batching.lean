import McSim.Pthread.Scheduler

/-! Batching is transparent.
The instructions in the buffer all belong to the hthread of the current thread, and with them the
simulator has done, in order, what the scheduler has called for. -/

namespace McSim.Pthread

open Contract

namespace PtsMessage

variable {m m' : PtsMessage} {n : Nat} {xs : List PtsInstr} {x : PtsInstr}

theorem batch_congr (h : ∀ i < n, m.instr i = m'.instr i) : m.batch n = m'.batch n := by
  induction n with
  | zero => rfl
  | succ n ih =>
    have front := ih fun i hi => h i (Nat.lt_succ_of_lt hi)
    simp only [batch, front, h n (Nat.lt_succ_self n)]

theorem batch_put (h : m.batch n = .ok xs) (hm : m'.instr = Function.update m.instr n (some x)) :
    m'.batch (n + 1) = .ok (xs ++ [x]) := by
  have front : m'.batch n = .ok xs := by
    rw [← h]
    refine batch_congr fun i hi => ?_
    rw [hm, Function.update_of_ne hi.ne]
  simp only [batch, front, hm, Function.update_self]
  rfl

theorem batch_length (h : m.batch n = .ok xs) : xs.length = n := by
  induction n generalizing xs with
  | zero =>
    cases h
    rfl
  | succ n ih =>
    unfold batch at h
    cases hb : m.batch n with
    | error e =>
      rw [hb] at h
      cases h
    | ok ys =>
      rw [hb] at h
      cases hi : m.instr n with
      | none =>
        rw [hi] at h
        cases h
      | some y =>
        rw [hi] at h
        cases h
        simp [ih hb]

theorem batch_last (h : m.batch (n + 1) = .ok xs) : ∃ x, m.instr n = some x ∧ x ∈ xs := by
  unfold batch at h
  cases hb : m.batch n with
  | error e =>
    rw [hb] at h
    cases h
  | ok ys =>
    rw [hb] at h
    cases hi : m.instr n with
    | none =>
      rw [hi] at h
      cases h
    | some y =>
      rw [hi] at h
      cases h
      exact ⟨y, rfl, by simp⟩

theorem ops_batch (ht : m.type = .addInstruction) (hv : m.uint32Val = n) (hn : n ≠ 0)
    (h : m.batch n = .ok xs) : m.ops = .ok (xs.map .addInstruction) := by
  simp only [ops, ht, hv, if_neg hn, h]
  rfl

@[simp] theorem answered_instr (r : Reply) : (m.answered r).instr = m.instr := by
  unfold answered
  split <;> rfl

end PtsMessage

namespace Pts

variable {s : Pts} {c : List Op} {k : Nat} {op : Op}

/-- The pile belongs to hthread `k`, and with it the simulator has done `c`. -/
structure Pile (s : Pts) (c : List Op) (k : Nat) : Prop where
  few : s.numPiledInstr < instrBatchSize
  typed : s.numPiledInstr ≠ 0 →
    s.message.type = .addInstruction ∧ s.message.uint32Val = s.numPiledInstr
  held : ∃ xs, s.message.batch s.numPiledInstr = .ok xs ∧ (∀ x ∈ xs, x.hthreadid = k) ∧
    s.performed ++ xs.map .addInstruction = c

/-- Nothing is piled, and the simulator has done `c`. -/
structure Settled (s : Pts) (c : List Op) : Prop where
  empty : s.numPiledInstr = 0
  done : s.performed = c

theorem Settled.pile (h : s.Settled c) (k : Nat) : s.Pile c k where
  few := by
    rw [h.empty]
    decide
  typed hne := absurd h.empty hne
  held := ⟨[], by rw [h.empty]; rfl, by simp, by simpa using h.done⟩

theorem Pile.settled (h : s.Pile c k) (empty : s.numPiledInstr = 0) : s.Settled c := by
  obtain ⟨xs, hxs, -, hc⟩ := h.held
  rw [empty] at hxs
  cases hxs
  exact ⟨empty, by simpa using hc⟩

theorem sync_ok {l : List Op} (h : s.message.ops = .ok l) : s.syncWithMcsim = .ok { s with
    message := s.message.answered (s.replies 0)
    replies := fun n => s.replies (n + 1)
    performed := s.performed ++ l } := by
  simp only [syncWithMcsim, h]
  rfl

theorem flush_settles (h : s.Pile c k) : ∃ s', s.flush = .ok s' ∧ s'.Settled c := by
  obtain ⟨xs, hxs, -, hc⟩ := h.held
  unfold flush
  by_cases hn : s.numPiledInstr = 0
  · exact ⟨s, if_neg (not_not.mpr hn), h.settled hn⟩
  · obtain ⟨ht, hv⟩ := h.typed hn
    obtain ⟨n, hsucc⟩ := Nat.exists_eq_succ_of_ne_zero hn
    obtain ⟨x, hx, -⟩ := PtsMessage.batch_last (hsucc ▸ hxs)
    have sync := sync_ok (PtsMessage.ops_batch ht hv hn hxs)
    have last : s.message.instr (s.numPiledInstr - 1) = some x := by
      rw [hsucc, Nat.succ_eq_add_one, Nat.add_sub_cancel, hx]
    have typed : ¬ s.message.type ≠ .addInstruction := not_not.mpr ht
    have sent : (if s.numPiledInstr ≠ 0 then s.sendInstrBatch else return s) = .ok { s with
        message := s.message.answered (s.replies 0)
        replies := fun n => s.replies (n + 1)
        performed := s.performed ++ xs.map .addInstruction
        numAvailableSlot := Function.update s.numAvailableSlot x.hthreadid
          (s.message.answered (s.replies 0)).uint32Val
        numPiledInstr := 0 } := by
      simp only [if_pos hn, sendInstrBatch, if_neg typed, sync, bind, Except.bind,
        PtsMessage.answered_instr, last]
      rfl
    exact ⟨_, sent, rfl, hc⟩

theorem told (h : s.Pile c k) (op : Op) (fill : PtsMessage → PtsMessage)
    (hops : ∀ m, (fill m).ops = .ok [op]) :
    ∃ s₁ s', s.flush = .ok s₁ ∧
      { s₁ with message := fill s₁.message }.syncWithMcsim = .ok s' ∧ s'.Settled (c ++ [op]) := by
  obtain ⟨s₁, hflush, settled⟩ := flush_settles h
  refine ⟨s₁, _, hflush, @sync_ok { s₁ with message := fill s₁.message } _ (hops s₁.message),
    settled.empty, ?_⟩
  simp only [settled.done]

section Told
variable (h : s.Pile c k)
include h

theorem setStackNSize_settles (hthread stack stacksize : Nat) :
    ∃ s', s.setStackNSize hthread stack stacksize = .ok s' ∧
      s'.Settled (c ++ [.setStackNSize hthread stack stacksize]) := by
  obtain ⟨s₁, s', hflush, hsync, settled⟩ := told h (.setStackNSize hthread stack stacksize)
    (fun m => { m with
      type := .setStackNSize, uint32Val := hthread, stackVal := stack
      stacksizeVal := stacksize }) fun _ => rfl
  exact ⟨s', by simp only [setStackNSize, hflush, bind, Except.bind, hsync], settled⟩

theorem setActive_settles (hthread : Nat) (isActive : Bool) :
    ∃ s', s.setActive hthread isActive = .ok s' ∧
      s'.Settled (c ++ [.setActive hthread isActive]) := by
  obtain ⟨s₁, s', hflush, hsync, settled⟩ := told h (.setActive hthread isActive) (fun m => { m with
    type := .setActive, uint32Val := hthread, boolVal := isActive }) fun _ => rfl
  exact ⟨s', by simp only [setActive, hflush, bind, Except.bind, hsync], settled⟩

theorem getCurrTime_settles : ∃ r, s.getCurrTime = .ok r ∧ r.1.Settled (c ++ [.getCurrTime]) := by
  obtain ⟨s₁, s', hflush, hsync, settled⟩ := told h .getCurrTime
    (fun m => { m with type := .getCurrTime }) fun _ => rfl
  exact ⟨(s', _), by simp only [getCurrTime, hflush, bind, Except.bind, hsync]; rfl, settled⟩

theorem getParamUint64_settles (str : String) (defValue : Nat) :
    ∃ r, s.getParamUint64 str defValue = .ok r ∧
      r.1.Settled (c ++ [.getParamUint64 str defValue]) := by
  obtain ⟨s₁, s', hflush, hsync, settled⟩ := told h (.getParamUint64 str defValue) (fun m =>
    { m with type := .getParamUint64, uint64Val := defValue }.putStr str) fun _ => rfl
  exact ⟨(s', _), by simp only [getParamUint64, hflush, bind, Except.bind, hsync]; rfl, settled⟩

theorem resumeSimulation_settles (mustSwitch killed : Bool) :
    ∃ r, s.resumeSimulation mustSwitch killed = .ok r ∧
      r.1.Settled (c ++ [.resumeSimulation mustSwitch killed]) := by
  obtain ⟨s₁, s', hflush, hsync, settled⟩ := told h (.resumeSimulation mustSwitch killed) (fun m =>
    { m with type := .resumeSimulation, boolVal := mustSwitch, killed }) fun _ => rfl
  exact ⟨(s', _), by simp only [resumeSimulation, hflush, bind, Except.bind, hsync]; rfl, settled⟩

theorem mixed_own {x : PtsInstr} (hx : x.hthreadid = k) : s.mixed x = some false := by
  obtain ⟨xs, hxs, own, -⟩ := h.held
  unfold mixed
  by_cases hn : s.numPiledInstr = 0
  · exact if_pos hn
  · obtain ⟨n, hsucc⟩ := Nat.exists_eq_succ_of_ne_zero hn
    obtain ⟨y, hy, hmem⟩ := PtsMessage.batch_last (hsucc ▸ hxs)
    rw [if_neg hn, hsucc]
    simp [hy, own y hmem, hx]

theorem pile_batch (x : PtsInstr) : ∃ xs, (s.pile x).message.batch (s.numPiledInstr + 1) = .ok xs ∧
    (∀ y ∈ xs, y = x ∨ y.hthreadid = k) ∧
    s.performed ++ xs.map .addInstruction = c ++ [.addInstruction x] := by
  obtain ⟨xs, hxs, own, hc⟩ := h.held
  refine ⟨xs ++ [x], PtsMessage.batch_put hxs rfl, fun y hy => ?_, ?_⟩
  · rcases List.mem_append.mp hy with hy | hy
    · exact .inr (own y hy)
    · exact .inl (List.mem_singleton.mp hy)
  · rw [List.map_append, ← List.append_assoc, hc]
    rfl

theorem sendPile_settles (x : PtsInstr) : ∃ r, (s.pile x).sendPile x = .ok r ∧
    r.1.Settled (c ++ [.addInstruction x]) := by
  obtain ⟨xs, hxs, -, hc⟩ := pile_batch h x
  have ops : (s.pile x).message.ops = .ok (xs.map .addInstruction) :=
    PtsMessage.ops_batch rfl rfl (Nat.succ_ne_zero _) hxs
  exact ⟨(_, _), by simp only [sendPile, sync_ok ops, bind, Except.bind]; rfl, rfl, hc⟩

theorem addInstruction_piles {x : PtsInstr} (hx : x.hthreadid = k) (canBePiled : Bool) :
    ∃ r, s.addInstruction x canBePiled = .ok r ∧ r.1.Pile (c ++ [.addInstruction x]) k ∧
      (canBePiled = false → r.1.Settled (c ++ [.addInstruction x])) := by
  have few : ¬ ¬ s.numPiledInstr < instrBatchSize := not_not.mpr h.few
  have own : s.mixed x = some false := mixed_own h hx
  simp only [addInstruction, if_neg few, own]
  split
  · obtain ⟨r, hr, settled⟩ := sendPile_settles h x
    exact ⟨r, hr, settled.pile k, fun _ => settled⟩
  · rename_i stays
    simp only [not_or, not_le] at stays
    obtain ⟨xs, hxs, hown, hc⟩ := pile_batch h x
    refine ⟨_, rfl, ⟨stays.2.1, fun _ => ⟨rfl, rfl⟩, xs, hxs, fun y hy => ?_, hc⟩,
      fun hf => absurd hf stays.1⟩
    rcases hown y hy with rfl | hy
    · exact hx
    · exact hy

end Told
end Pts

def Foreign (e : Stop) : Prop := e = .tooManyThreads ∨ e = .assertion ∨ e = .undefined

namespace Scheduler

variable {s : Scheduler} {k : Nat}

def Piles (s : Scheduler) (k : Nat) : Prop := s.pts.Pile s.calls k

def Quiet (s : Scheduler) : Prop := s.pts.Settled s.calls

def Batched (s : Scheduler) : Prop := s.Piles (s.pthToHth s.current)

theorem Quiet.piles (h : s.Quiet) (k : Nat) : s.Piles k := Pts.Settled.pile h k

theorem Quiet.batched (h : s.Quiet) : s.Batched := h.piles _

theorem meets_assertion {post : Scheduler → Prop} : Meets Foreign post (.error .assertion) :=
  .inr (.inl rfl)

theorem meets_undefined {post : Scheduler → Prop} : Meets Foreign post (.error .undefined) :=
  .inr (.inr rfl)

theorem setStackNSize_quiet (h : s.Piles k) (t hthread stack stacksize : Nat) :
    Meets Foreign Quiet (s.setStackNSize t hthread stack stacksize) := by
  obtain ⟨pts, hp, settled⟩ := Pts.setStackNSize_settles h hthread stack stacksize
  simp only [setStackNSize, hp, bind, Except.bind]
  exact settled

theorem setActive_quiet (h : s.Piles k) (t hthread : Nat) (isActive : Bool) :
    Meets Foreign Quiet (s.setActive t hthread isActive) := by
  obtain ⟨pts, hp, settled⟩ := Pts.setActive_settles h hthread isActive
  simp only [setActive, hp, bind, Except.bind]
  exact settled

theorem getCurrTime_quiet (h : s.Piles k) : Meets Foreign Quiet s.getCurrTime := by
  obtain ⟨r, hp, settled⟩ := Pts.getCurrTime_settles h
  simp only [getCurrTime, hp, bind, Except.bind]
  exact settled

theorem getStackSz_quiet (h : s.Piles k) : Meets Foreign (fun r => r.1.Quiet) s.getStackSz := by
  obtain ⟨r, hp, settled⟩ := Pts.getParamUint64_settles h "stack_sz" defStackSz
  simp only [getStackSz, hp, bind, Except.bind]
  exact settled

theorem addInstruction_quiet {hthread : Nat} (h : s.Piles hthread) (t : Nat) (x : PtsInstr) :
    Meets Foreign Quiet (s.addInstruction t hthread x) := by
  obtain ⟨r, hp, -, settled⟩ := Pts.addInstruction_piles h
    (x := { x with hthreadid := hthread, currTime := s.currTime }) rfl false
  simp only [addInstruction, hp, bind, Except.bind]
  exact settled rfl

theorem resumeSimulation_quiet (h : s.Piles k) (mustSwitch killed : Bool) :
    Meets Foreign Quiet (s.resumeSimulation mustSwitch killed) := by
  obtain ⟨r, hp, settled⟩ := Pts.resumeSimulation_settles h mustSwitch killed
  simp only [resumeSimulation, hp, bind, Except.bind]
  split
  · split
    · unfold switchTo setThread
      dsimp only
      split
      · exact settled
      · split <;> exact settled
    · exact meets_undefined
  · exact meets_undefined

theorem announce_quiet (h : s.Piles k) (t n : Nat) (p : ThreadState) :
    Meets Foreign Quiet (s.announce t n p) := by
  simp only [announce, meets_bind]
  refine (setStackNSize_quiet h t n _ _).mono (fun s h => ?_) fun _ h => h
  refine (setActive_quiet (h.piles 0) t n _).mono (fun s h => ?_) fun _ h => h
  refine (getCurrTime_quiet (h.piles 0)).mono (fun s h => ?_) fun _ h => h
  split
  · exact h
  · exact addInstruction_quiet (h.piles n) t _

theorem addThread_quiet (h : s.Piles k) (t : Nat) (hasStartctxt : Bool) (mapped : Nat) :
    Meets Foreign Quiet (s.addThread t hasStartctxt mapped) := by
  have created : Meets Foreign (fun r => r.1.Piles k) (s.newThread hasStartctxt mapped) := by
    unfold newThread
    split
    · exact h
    · rw [meets_bind]
      exact (getStackSz_quiet h).mono (fun r h => h.piles k) fun _ h => h
  unfold addThread
  split
  · exact meets_assertion
  · rw [meets_bind]
    refine created.mono (fun r h => ?_) fun _ h => h
    dsimp only
    split
    · exact .inl rfl
    · exact announce_quiet (s := r.1.enter t r.2) h t _ _

theorem killThread_quiet (h : s.Piles k) (t : Nat) : Meets Foreign Quiet (s.killThread t) := by
  unfold killThread
  split
  · exact meets_assertion
  · simp only [meets_bind]
    refine (setStackNSize_quiet h t _ _ _).mono (fun s h => ?_) fun _ h => h
    refine (setActive_quiet (h.piles 0) t _ _).mono (fun s h => ?_) fun _ h => h
    exact (getCurrTime_quiet (h.piles 0)).mono (fun s h => h) fun _ h => h

theorem setActiveState_quiet (h : s.Piles k) (t : Nat) (isActive : Bool) :
    Meets Foreign Quiet (s.setActiveState t isActive) := by
  unfold setActiveState
  split
  · exact meets_assertion
  · exact setActive_quiet (s := s.setThread t { s.pthreads t with active := isActive }) h _ _ _

/-- An instruction of thread `t` finds none of another hthread piled. -/
def JoinsPile (s : Scheduler) (t : Nat) : Prop :=
  s.pts.numPiledInstr = 0 ∨ s.pthToHth t = s.pthToHth s.current

theorem Batched.joined (h : s.Batched) {t : Nat} (joins : s.JoinsPile t) :
    s.Piles (s.pthToHth t) := by
  rcases joins with empty | same
  · exact (Pts.Pile.settled h empty).pile _
  · rw [same]
    exact h

theorem blockThread_quiet (h : s.Batched) {t barrier : Nat} (nPart : Nat)
    (joins : barrier = 0 ∨ s.JoinsPile t) :
      Meets Foreign Quiet (s.blockThread t barrier nPart) := by
  have announced : Meets Foreign (fun s' => ∃ k, s'.Piles k)
    (s.announceBarrier t barrier nPart) := by
    unfold announceBarrier
    split
    · exact ⟨_, h⟩
    · rename_i some
      have piles := h.joined (joins.resolve_left some)
      exact (addInstruction_quiet piles _ _).mono (fun s' h => ⟨0, h.piles 0⟩) fun _ h => h
  unfold blockThread
  split
  · exact meets_assertion
  · rw [meets_bind]
    refine announced.mono (fun s₁ h => ?_) fun _ h => h
    obtain ⟨k, h⟩ := h
    split
    · simp only [deschedule, meets_bind]
      refine (setActiveState_quiet h _ _).mono (fun s₂ h => ?_) fun _ h => h
      split
      · exact meets_assertion
      · split
        · exact meets_undefined
        · refine resumeSimulation_quiet (k := 0) ?_ _ _
          exact Quiet.piles (s := s₂) h 0
    · exact meets_assertion

theorem unblockThread_quiet (h : s.Piles k) (t : Nat) :
    Meets Foreign Quiet (s.unblockThread t) := by
  unfold unblockThread
  split
  · exact meets_assertion
  · simp only [meets_bind]
    refine (setActiveState_quiet h t true).mono (fun s h => ?_) fun _ h => h
    exact (addInstruction_quiet (h.piles _) t _).mono (fun s h => h) fun _ h => h

theorem addSynchInstruction_batched (h : s.Batched) {t : Nat} (joins : s.JoinsPile t)
    (islock isunlock : Bool) (barrier nPart : Nat) :
    Meets Foreign Batched (s.addSynchInstruction t islock isunlock barrier nPart) := by
  have added : ∀ x, Meets Foreign Batched (s.addInstruction t (s.pthToHth t) x) :=
    fun x => (addInstruction_quiet (h.joined joins) _ x).mono (fun s h => h.batched) fun _ h => h
  unfold addSynchInstruction
  split
  · exact meets_undefined
  · split
    · exact h
    · split
      · exact meets_assertion
      · split
        · exact added _
        · exact added _

theorem processIns_batched (h : s.Batched) (hasContext : Bool) (x : PtsInstr) :
    Meets Foreign Batched (s.processIns hasContext x) := by
  unfold processIns
  split
  · exact meets_undefined
  · dsimp only
    split
    · exact h
    · split
      · exact h
      · obtain ⟨r, hp, piles, -⟩ := Pts.addInstruction_piles h
          (x := { x with
            hthreadid := s.pthToHth s.current, currTime := s.currTime, islock := false
            isunlock := false, isbarrier := false }) rfl true
        have resumed : ∀ s' : Scheduler, s'.Piles (s.pthToHth s.current) →
            Meets Foreign Batched (s'.resumeSimulation false false) := fun s' piles =>
          (resumeSimulation_quiet piles _ _).mono (fun s h => h.batched) fun _ h => h
        simp only [hp, bind, Except.bind]
        split
        · exact piles
        · split
          · exact resumed _ piles
          · exact resumed _ piles

theorem setStack_batched (h : s.Batched) (stackPtr : Nat) :
    Meets Foreign Batched (s.setStack stackPtr) := by
  unfold setStack
  split
  · exact meets_undefined
  · split
    · exact h
    · simp only [meets_bind]
      refine (getStackSz_quiet h).mono (fun r quiet => ?_) fun _ h => h
      refine (setStackNSize_quiet (k := 0) ?_ _ _ _ _).mono (fun s h => h.batched) fun _ h => h
      exact Quiet.piles (s := r.1) quiet 0

/-- Barriers and synchronization instructions join the pile of their own hthread. -/
def Joins (s : Scheduler) : SchedulerCall → Prop
  | .blockThread t barrier _ => barrier = 0 ∨ s.JoinsPile t
  | .addSynchInstruction t _ _ _ _ => s.JoinsPile t
  | _ => True

def RunJoins (s : Scheduler) : List SchedulerCall → Prop
  | [] => True
  | c :: calls => s.Joins c ∧ Meets (fun _ => True) (fun s' => s'.RunJoins calls) (s.call c)

instance (s : Scheduler) : DecidablePred s.JoinsPile := fun t =>
  inferInstanceAs (Decidable (s.pts.numPiledInstr = 0 ∨ s.pthToHth t = s.pthToHth s.current))

instance (s : Scheduler) : DecidablePred s.Joins
  | .blockThread t barrier _ => inferInstanceAs (Decidable (barrier = 0 ∨ s.JoinsPile t))
  | .addSynchInstruction t _ _ _ _ => inferInstanceAs (Decidable (s.JoinsPile t))
  | .addThread .. | .killThread _ | .unblockThread _ | .processIns .. | .resumeSimulation ..
  | .setStack _ | .mark .. => isTrue trivial

instance decideRunJoins :
    ∀ (calls : List SchedulerCall) (s : Scheduler), Decidable (s.RunJoins calls)
  | [], _ => isTrue trivial
  | c :: calls, s =>
    have (s' : Scheduler) : Decidable (s'.RunJoins calls) := decideRunJoins calls s'
    inferInstanceAs (Decidable
      (s.Joins c ∧ Meets (fun _ => True) (fun s' => s'.RunJoins calls) (s.call c)))

theorem call_batched (h : s.Batched) {c : SchedulerCall} (joins : s.Joins c) :
    Meets Foreign Batched (s.call c) := by
  have quiet : ∀ {x : Except Stop Scheduler}, Meets Foreign Quiet x → Meets Foreign Batched x :=
    fun hx => hx.mono (fun s h => h.batched) fun _ h => h
  cases c with
  | addThread t hasStartctxt mapped => exact quiet (addThread_quiet h t hasStartctxt mapped)
  | killThread t => exact quiet (killThread_quiet h t)
  | blockThread t barrier nPart => exact quiet (blockThread_quiet h nPart joins)
  | unblockThread t => exact quiet (unblockThread_quiet h t)
  | addSynchInstruction t islock isunlock barrier nPart =>
    exact addSynchInstruction_batched h joins islock isunlock barrier nPart
  | processIns hasContext x => exact processIns_batched h hasContext x
  | resumeSimulation mustSwitch killed => exact quiet (resumeSimulation_quiet h mustSwitch killed)
  | setStack stackPtr => exact setStack_batched h stackPtr
  | mark skip spin =>
    show Meets Foreign Batched (s.mark skip spin)
    unfold mark
    split
    · exact meets_undefined
    · exact h

theorem run_batched (h : s.Batched) {calls : List SchedulerCall} (joins : s.RunJoins calls) :
    Meets Foreign Batched (s.run calls) := by
  induction calls generalizing s with
  | nil => exact h
  | cons c calls ih =>
    have first := call_batched h joins.1
    have later := joins.2
    simp only [run, List.foldlM_cons, meets_bind]
    cases hc : s.call c with
    | error e =>
      rw [hc] at first
      exact first
    | ok s' =>
      rw [hc] at first later
      exact ih first later

/-- What has been performed and what is piled, in this order, is what has been called for, and none
of the checks on batches fails. -/
theorem run_transparent (numHthreads : Nat) (replies : Nat → Reply) (ignoreSkipInstrs : Bool)
    {calls : List SchedulerCall}
    (joins : (start numHthreads replies ignoreSkipInstrs).RunJoins calls) :
    Meets (fun e => e ≠ .mixedHthreads ∧ e ≠ .batchFull ∧ e ≠ .notBatch ∧ e ≠ .emptyBatch)
      (fun s => ∃ xs, s.pts.message.batch s.pts.numPiledInstr = .ok xs ∧
        s.pts.performed ++ xs.map .addInstruction = s.calls)
      ((start numHthreads replies ignoreSkipInstrs).run calls) := by
  have settled : (start numHthreads replies ignoreSkipInstrs).Quiet := ⟨rfl, rfl⟩
  refine (run_batched settled.batched joins).mono (fun s batched => ?_) fun e foreign => ?_
  · obtain ⟨xs, hxs, -, hc⟩ := batched.held
    exact ⟨xs, hxs, hc⟩
  · rcases foreign with rfl | rfl | rfl <;> decide

def roomy (_ : Nat) : Reply := { slots := 8, hthread := 1, time := 80, value := defStackSz }

def load (addr : Nat) : SchedulerCall :=
  .processIns false { hthreadid := 0, currTime := 0, raddr := addr }

/-- A thread takes a lock and waits at a barrier, each with instructions piled before, and the next
thread wakes it. -/
def lockAndBarrier : List SchedulerCall :=
  [.addThread 0 false 0, .addThread 1 true 4096, load 64, load 128,
    .addSynchInstruction 0 true false 0 0,
    load 192, .blockThread 0 4160 2, load 256, .unblockThread 0, load 320, load 384]

theorem run_transparent_barrier : ∃ s xs, (start 2 roomy false).run lockAndBarrier = .ok s ∧
    s.current = 1 ∧ xs.length = 2 ∧ s.calls.length = 20 ∧
    s.pts.message.batch s.pts.numPiledInstr = .ok xs ∧
    s.pts.performed ++ xs.map .addInstruction = s.calls := by
  have ends : Meets (fun _ => False)
      (fun s => s.current = 1 ∧ s.pts.numPiledInstr = 2 ∧ s.calls.length = 20)
      ((start 2 roomy false).run lockAndBarrier) := by decide +kernel
  obtain ⟨s, hs, current, piled, length⟩ := ends.result
  have joins : (start 2 roomy false).RunJoins lockAndBarrier := by decide +kernel
  obtain ⟨xs, hxs, hc⟩ := (run_transparent 2 roomy false joins).of_ok hs
  exact ⟨s, xs, hs, current, (PtsMessage.batch_length hxs).trans piled, length, hxs, hc⟩

/-- On behalf of another thread, which no caller asks for, the instruction meets the pile of the
current one. -/
theorem other_thread_mixed : (start 2 roomy false).run
    [.addThread 0 false 0, .addThread 1 true 4096, load 64, load 128, .blockThread 1 4160 2] =
      .error .mixedHthreads := rfl

end Scheduler
end McSim.Pthread
