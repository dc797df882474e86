import McSim.Pthread.HthreadMap

/-! What the calls of the scheduler do to its threads: which of them are live, which are active, and
how many of these it counts. -/

namespace McSim.Pthread.Scheduler

open Contract

variable {s s' : Scheduler}

/-- The threads are as they were, but for what they execute. -/
structure Calm (s s' : Scheduler) : Prop where
  live : s'.live = s.live
  active : ∀ t, (s'.pthreads t).active = (s.pthreads t).active
  nactive : s'.nactive = s.nactive
  numHthreads : s'.pts.numHthreads = s.pts.numHthreads

theorem Calm.refl (s : Scheduler) : Calm s s := ⟨rfl, fun _ => rfl, rfl, rfl⟩

theorem Calm.trans {s₁ s₂ s₃ : Scheduler} (h : Calm s₁ s₂) (h' : Calm s₂ s₃) : Calm s₁ s₃ where
  live := h'.live.trans h.live
  active t := (h'.active t).trans (h.active t)
  nactive := h'.nactive.trans h.nactive
  numHthreads := h'.numHthreads.trans h.numHthreads

structure Still (s s' : Scheduler) : Prop extends Calm s s' where
  current : s'.current = s.current

theorem Still.refl (s : Scheduler) : Still s s := ⟨.refl s, rfl⟩

theorem Still.trans {s₁ s₂ s₃ : Scheduler} (h : Still s₁ s₂) (h' : Still s₂ s₃) : Still s₁ s₃ :=
  ⟨h.toCalm.trans h'.toCalm, h'.current.trans h.current⟩

theorem Still.then {α : Type} {f : α → Scheduler} {x : Except Stop α} (h : Still s s')
    (hx : Meets (fun _ => True) (fun a => Still s' (f a)) x) :
    Meets (fun _ => True) (fun a => Still s (f a)) x :=
  hx.mono (fun _ ha => h.trans ha) fun _ h => h

theorem Calm.then {α : Type} {f : α → Scheduler} {x : Except Stop α} (h : Calm s s')
    (hx : Meets (fun _ => True) (fun a => Calm s' (f a)) x) :
    Meets (fun _ => True) (fun a => Calm s (f a)) x :=
  hx.mono (fun _ ha => h.trans ha) fun _ h => h

theorem setThread_still (t : Nat) (p : ThreadState) (h : p.active = (s.pthreads t).active) :
    Still s (s.setThread t p) := by
  refine ⟨⟨rfl, fun u => ?_, rfl, rfl⟩, rfl⟩
  by_cases same : u = t
  · subst same
    simpa [setThread] using h
  · simp [setThread, same]

theorem sends_still {pts : Pts} (op : Op) (t n : Nat) (h : Pts.SameHthreads s.pts pts) :
    Still s (({ s with pts := pts }.asks op).sends t n) := ⟨⟨rfl, fun _ => rfl, rfl, h⟩, rfl⟩

theorem addInstruction_still (t n : Nat) (x : PtsInstr) :
    Meets (fun _ => True) (Still s) (s.addInstruction t n x) := by
  unfold addInstruction
  simp only [meets_bind]
  exact (Pts.addInstruction_same _ _).mono (fun r h => sends_still _ t n h) fun _ h => h

theorem setStackNSize_still (t n stack stacksize : Nat) :
    Meets (fun _ => True) (Still s) (s.setStackNSize t n stack stacksize) := by
  unfold setStackNSize
  simp only [meets_bind]
  exact (Pts.setStackNSize_same _ _ _).mono (fun r h => sends_still _ t n h) fun _ h => h

theorem setActive_still (t n : Nat) (isActive : Bool) :
    Meets (fun _ => True) (Still s) (s.setActive t n isActive) := by
  unfold setActive
  simp only [meets_bind]
  exact (Pts.setActive_same _ _).mono (fun r h => sends_still _ t n h) fun _ h => h

theorem getCurrTime_still : Meets (fun _ => True) (Still s) s.getCurrTime := by
  unfold getCurrTime
  simp only [meets_bind]
  exact Pts.getCurrTime_same.mono (fun r h => ⟨⟨rfl, fun _ => rfl, rfl, h⟩, rfl⟩) fun _ h => h

theorem getStackSz_still : Meets (fun _ => True) (fun r => Still s r.1) s.getStackSz := by
  unfold getStackSz
  simp only [meets_bind]
  exact (Pts.getParamUint64_same _ _).mono (fun r h => ⟨⟨rfl, fun _ => rfl, rfl, h⟩, rfl⟩)
    fun _ h => h

theorem switchTo_calm (mustSwitch : Bool) (t : Nat) : Calm s (s.switchTo mustSwitch t) := by
  unfold switchTo
  dsimp only
  split
  · exact Still.toCalm (setThread_still t _ rfl)
  · have moved : Calm s { s with current := t } := ⟨rfl, fun _ => rfl, rfl, rfl⟩
    split
    · exact moved.trans (Still.toCalm (setThread_still t _ rfl))
    · exact moved

theorem resumeSimulation_calm (mustSwitch killed : Bool) :
    Meets (fun _ => True) (Calm s) (s.resumeSimulation mustSwitch killed) := by
  unfold resumeSimulation
  simp only [meets_bind]
  refine (Pts.resumeSimulation_same mustSwitch killed).mono (fun r h => ?_) fun _ h => h
  split
  · split
    · have answered : Calm s
        ({ s with pts := r.1, currTime := r.2.2 }.asks (.resumeSimulation mustSwitch killed)) :=
        ⟨rfl, fun _ => rfl, rfl, h⟩
      exact answered.trans (switchTo_calm mustSwitch _)
    · trivial
  · trivial

theorem pause_calm {t : Nat} {p : ThreadState} (h : p.active = (s.pthreads t).active)
    (mustSwitch killed : Bool) :
    Meets (fun _ => True) (Calm s) ((s.setThread t p).resumeSimulation mustSwitch killed) :=
  (setThread_still t p h).toCalm.then (resumeSimulation_calm mustSwitch killed)

theorem addSynchInstruction_still (t : Nat) (islock isunlock : Bool) (barrier nPart : Nat) :
    Meets (fun _ => True) (Still s) (s.addSynchInstruction t islock isunlock barrier nPart) := by
  unfold addSynchInstruction
  split
  · trivial
  · split
    · exact Still.refl s
    · split
      · trivial
      · split
        · exact addInstruction_still t _ _
        · exact addInstruction_still t _ _

theorem announceBarrier_still (t barrier nPart : Nat) :
    Meets (fun _ => True) (Still s) (s.announceBarrier t barrier nPart) := by
  unfold announceBarrier
  split
  · exact Still.refl s
  · exact addInstruction_still t _ _

theorem processIns_calm (hasContext : Bool) (x : PtsInstr) :
    Meets (fun _ => True) (Calm s) (s.processIns hasContext x) := by
  unfold processIns
  split
  · trivial
  · dsimp only
    split
    · exact Still.toCalm (setThread_still s.current _ rfl)
    · split
      · exact Calm.refl s
      · simp only [meets_bind]
        refine (Pts.addInstruction_same _ _).mono (fun r h => ?_) fun _ h => h
        have sent := fun op => (sends_still op s.current (s.pthToHth s.current) h).toCalm
        split
        · exact sent _
        · split
          · refine (sent _).then (pause_calm ?_ false false)
            rfl
          · exact (sent _).then (resumeSimulation_calm false false)

theorem setStack_calm (stackPtr : Nat) : Meets (fun _ => True) (Calm s) (s.setStack stackPtr) := by
  unfold setStack
  split
  · trivial
  · split
    · exact Calm.refl s
    · simp only [meets_bind]
      refine getStackSz_still.mono (fun r h => ?_) fun _ h => h
      have stored : Calm r.1 (r.1.setThread s.current
          { s.pthreads s.current with
            stack := (stackPtr + (2 ^ 64 - r.2) + 8) % 2 ^ 64, stacksize := r.2 }) :=
        Still.toCalm (setThread_still s.current _ (h.active s.current).symm)
      exact (h.toCalm.trans stored).then
        ((setStackNSize_still _ _ _ _).mono (fun _ q => q.toCalm) fun _ h => h)

theorem mark_calm (skip spin : Int) : Meets (fun _ => True) (Calm s) (s.mark skip spin) := by
  unfold mark
  split
  · trivial
  · exact Still.toCalm (setThread_still s.current _ rfl)

structure Turned (t : Nat) (isActive : Bool) (s s' : Scheduler) : Prop where
  mem : t ∈ s.live
  before : (s.pthreads t).active = !isActive
  live : s'.live = s.live
  active : (fun u => (s'.pthreads u).active) =
    Function.update (fun u => (s.pthreads u).active) t isActive
  nactive : s'.nactive = if isActive then s.nactive + 1 else s.nactive - 1
  numHthreads : s'.pts.numHthreads = s.pts.numHthreads

theorem Turned.calm {t : Nat} {isActive : Bool} {s₁ s₂ s₃ : Scheduler} (h : Turned t isActive s₁ s₂)
    (h' : Calm s₂ s₃) : Turned t isActive s₁ s₃ where
  mem := h.mem
  before := h.before
  live := h'.live.trans h.live
  active := (funext h'.active).trans h.active
  nactive := h'.nactive.trans h.nactive
  numHthreads := h'.numHthreads.trans h.numHthreads

theorem Calm.turned {t : Nat} {isActive : Bool} {s₁ s₂ s₃ : Scheduler} (h : Calm s₁ s₂)
    (h' : Turned t isActive s₂ s₃) : Turned t isActive s₁ s₃ where
  mem := h.live ▸ h'.mem
  before := (h.active t).symm.trans h'.before
  live := h'.live.trans h.live
  active := h'.active.trans (congrArg (Function.update · t isActive) (funext h.active))
  nactive := by rw [h'.nactive, h.nactive]
  numHthreads := h'.numHthreads.trans h.numHthreads

theorem setActiveState_turned {t : Nat} {isActive : Bool}
    (before : (s.pthreads t).active = !isActive) :
    Meets (fun _ => True) (fun r => r.current = s.current ∧
      Turned t isActive s { r with nactive := if isActive then r.nactive + 1 else r.nactive - 1 })
      (s.setActiveState t isActive) := by
  unfold setActiveState
  by_cases live : t ∉ s.live
  · rw [if_pos live]
    trivial
  · rw [if_neg live]
    refine (setActive_still t _ isActive).mono (fun r h => ⟨h.current, ?_⟩) fun _ h => h
    refine ⟨not_not.mp live, before, h.live, funext fun u => (h.active u).trans ?_, ?_,
      h.numHthreads⟩
    · by_cases same : u = t
      · subst same
        simp [setThread]
      · simp [setThread, same]
    · exact congrArg (fun n : UInt32 => if isActive then n + 1 else n - 1) h.nactive

theorem deschedule_turned {t : Nat} (active : (s.pthreads t).active = true) :
    Meets (fun _ => True) (Turned t false s) (s.deschedule t) := by
  unfold deschedule
  simp only [meets_bind]
  refine (setActiveState_turned active).mono (fun r h => ?_) fun _ h => h
  split
  · trivial
  · split
    · trivial
    · refine Meets.mono (pause_calm ?_ true false) (fun r' h' => h.2.calm h') fun _ h => h
      rfl

theorem blockThread_turned (t barrier nPart : Nat) :
    Meets (fun _ => True) (Turned t false s) (s.blockThread t barrier nPart) := by
  unfold blockThread
  split
  · trivial
  · simp only [meets_bind]
    refine (announceBarrier_still t barrier nPart).mono (fun r h => ?_) fun _ h => h
    split
    · rename_i active
      exact (deschedule_turned active).mono (fun r' h' => h.toCalm.turned h') fun _ h => h
    · trivial

theorem unblockThread_turned (t : Nat) :
    Meets (fun _ => True) (fun r => r.current = s.current ∧ Turned t true s r)
      (s.unblockThread t) := by
  unfold unblockThread
  split
  · trivial
  · rename_i asleep
    simp only [meets_bind]
    have before : (s.pthreads t).active = !true :=
      Bool.eq_false_of_not_eq_true fun active => asleep (.inr active)
    refine (setActiveState_turned before).mono (fun r h => ?_) fun _ h => h
    refine (addInstruction_still t _ _).mono (fun r' h' => ⟨h'.current.trans h.1, ?_⟩) fun _ h => h
    exact h.2.calm ⟨h'.live, h'.active, congrArg (· + 1) h'.nactive, h'.numHthreads⟩

structure Killed (t : Nat) (s s' : Scheduler) : Prop where
  awake : t = s.current → t ∈ s.live ∧ (s.pthreads t).active = true
  live : s'.live = s.live.erase t
  active : ∀ u, (s'.pthreads u).active = (s.pthreads u).active
  nactive : s'.nactive = s.nactive - 1
  numHthreads : s'.pts.numHthreads = s.pts.numHthreads

theorem killThread_killed (t : Nat) : Meets (fun _ => True) (Killed t s) (s.killThread t) := by
  unfold killThread
  split
  · trivial
  · rename_i awake
    simp only [meets_bind]
    refine (setStackNSize_still t _ _ _).mono (fun r₁ h₁ => ?_) fun _ h => h
    refine (h₁.then (setActive_still t _ _)).mono (fun r₂ h₂ => ?_) fun _ h => h
    refine (h₂.then getCurrTime_still).mono (fun r h => ?_) fun _ h => h
    refine ⟨fun same => ?_, ?_, h.active, ?_, h.numHthreads⟩
    · exact not_not.mp fun dead => awake ⟨same, dead⟩
    · exact congrArg (Finset.erase · t) h.live
    · exact congrArg (· - 1) h.nactive

structure Added (t : Nat) (s s' : Scheduler) : Prop where
  fresh : t ∉ s.live
  room : s.live.card = 0 ∨ s.live.card < s.pts.numHthreads
  live : s'.live = insert t s.live
  active : (fun u => (s'.pthreads u).active) = Function.update
    (fun u => (s.pthreads u).active) t true
  nactive : s'.nactive = s.nactive + 1
  numHthreads : s'.pts.numHthreads = s.pts.numHthreads

theorem newThread_still (hasStartctxt : Bool) (mapped : Nat) :
    Meets (fun _ => True) (fun r => Still s r.1 ∧ r.2.active = true)
      (s.newThread hasStartctxt mapped) := by
  unfold newThread
  split
  · exact ⟨Still.refl s, rfl⟩
  · simp only [meets_bind]
    exact getStackSz_still.mono (fun r h => ⟨h, rfl⟩) fun _ h => h

theorem announce_still (t n : Nat) (p : ThreadState) :
    Meets (fun _ => True) (Still s) (s.announce t n p) := by
  unfold announce
  simp only [meets_bind]
  refine (setStackNSize_still t _ _ _).mono (fun r₁ h₁ => ?_) fun _ h => h
  refine (h₁.then (setActive_still t _ _)).mono (fun r₂ h₂ => ?_) fun _ h => h
  refine (h₂.then getCurrTime_still).mono (fun r h => ?_) fun _ h => h
  split
  · exact h
  · exact h.then (addInstruction_still t _ _)

theorem addThread_added (t : Nat) (hasStartctxt : Bool) (mapped : Nat) :
    Meets (fun _ => True) (Added t s) (s.addThread t hasStartctxt mapped) := by
  unfold addThread
  split
  · trivial
  · rename_i fresh
    simp only [meets_bind]
    refine (newThread_still hasStartctxt mapped).mono (fun r h => ?_) fun _ h => h
    split
    · trivial
    · rename_i room
      refine (announce_still t _ _).mono (fun r' h' => ?_) fun _ h => h
      refine ⟨fresh, by omega, ?_, (funext h'.active).trans ?_, ?_, h'.numHthreads.trans h.1.numHthreads⟩
      · exact h'.live.trans (congrArg (insert t) h.1.live)
      · funext u
        by_cases same : u = t
        · subst same
          simp [enter, h.2]
        · simpa [enter, same] using h.1.active u
      · exact h'.nactive.trans (congrArg (· + 1) h.1.nactive)

end McSim.Pthread.Scheduler
