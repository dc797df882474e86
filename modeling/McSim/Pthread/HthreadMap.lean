import McSim.Pthread.Scheduler

/-! The map between threads and hthreads.
A new thread gets the number of live threads as its hthread, and an exit gives no number back. The
map is sound as long as a thread enters while the live ones hold the numbers below their count, and
as the calls that send a thread's id send it for a thread whose hthread has that number. -/

namespace McSim.Pthread

open Contract

namespace Pts

variable {s : Pts}

def SameHthreads (s s' : Pts) : Prop := s'.numHthreads = s.numHthreads

theorem sync_same : Meets (fun _ => True) (SameHthreads s) s.syncWithMcsim := by
  unfold syncWithMcsim
  cases s.message.ops with
  | error e => trivial
  | ok ops => exact rfl

theorem flush_same : Meets (fun _ => True) (SameHthreads s) s.flush := by
  unfold flush
  split
  · unfold sendInstrBatch
    split
    · trivial
    · simp only [meets_bind]
      refine sync_same.mono (fun r h => ?_) fun _ h => h
      split
      · trivial
      · exact h
  · exact rfl

theorem message_same {α : Type} (f : Pts → Pts) (g : Pts → α) (hf : ∀ s, SameHthreads s (f s)) :
    Meets (fun _ => True) (fun r => SameHthreads s r.1)
      (s.flush >>= fun s => (f s).syncWithMcsim >>= fun s => pure (s, g s)) := by
  simp only [meets_bind, meets_pure]
  refine flush_same.mono (fun r h => ?_) fun _ h => h
  exact sync_same.mono (fun r' h' => h'.trans ((hf r).trans h)) fun _ h => h

theorem resumeSimulation_same (mustSwitch killed : Bool) :
    Meets (fun _ => True) (fun r => SameHthreads s r.1) (s.resumeSimulation mustSwitch killed) :=
  message_same
    (fun s => { s with message := { s.message with
      type := .resumeSimulation, boolVal := mustSwitch, killed } })
    (fun s => (s.message.uint32Val, s.message.uint64Val)) fun _ => rfl

theorem getParamUint64_same (str : String) (defValue : Nat) :
    Meets (fun _ => True) (fun r => SameHthreads s r.1) (s.getParamUint64 str defValue) :=
  message_same
    (fun s => { s with
      message := PtsMessage.putStr
        { s.message with type := .getParamUint64, uint64Val := defValue } str })
    (fun s => s.message.uint64Val) fun _ => rfl

theorem getCurrTime_same : Meets (fun _ => True) (fun r => SameHthreads s r.1) s.getCurrTime :=
  message_same
    (fun s => { s with message := { s.message with type := .getCurrTime } })
    (fun s => s.message.uint64Val) fun _ => rfl

theorem setStackNSize_same (hthread stack stacksize : Nat) :
    Meets (fun _ => True) (SameHthreads s) (s.setStackNSize hthread stack stacksize) := by
  unfold setStackNSize
  simp only [meets_bind]
  exact flush_same.mono (fun r h => sync_same.mono (fun r' h' => h'.trans h) fun _ h => h)
    fun _ h => h

theorem setActive_same (hthread : Nat) (isActive : Bool) :
    Meets (fun _ => True) (SameHthreads s) (s.setActive hthread isActive) := by
  unfold setActive
  simp only [meets_bind]
  exact flush_same.mono (fun r h => sync_same.mono (fun r' h' => h'.trans h) fun _ h => h)
    fun _ h => h

theorem addInstruction_same (x : PtsInstr) (canBePiled : Bool) :
    Meets (fun _ => True) (fun r => SameHthreads s r.1) (s.addInstruction x canBePiled) := by
  unfold addInstruction
  dsimp only
  split
  · trivial
  · split
    · trivial
    · trivial
    · split
      · unfold sendPile
        simp only [meets_bind, meets_pure]
        exact sync_same.mono (fun r h => h) fun _ h => h
      · exact rfl

end Pts

namespace Scheduler

variable {s s' : Scheduler}

/-- What was sent on behalf of a thread is the hthread number the map held for it. -/
def SentRight (s : Scheduler) : Prop := ∀ x ∈ s.sent, x.2.1 = x.2.2

structure Mapped (s : Scheduler) : Prop where
  injective : ∀ t ∈ s.live, ∀ u ∈ s.live, s.pthToHth t = s.pthToHth u → t = u
  below : ∀ t ∈ s.live, s.pthToHth t < s.pts.numHthreads
  inverse : ∀ t ∈ s.live, s.hthToPth[s.pthToHth t]? = some (some t)
  places : s.pts.numHthreads ≤ s.hthToPth.length
  sent : s.SentRight

/-- `s'` has the threads of `s` on the same hthreads, and what was sent since was right. -/
structure Kept (s s' : Scheduler) : Prop where
  live : s'.live = s.live
  pthToHth : s'.pthToHth = s.pthToHth
  hthToPth : s'.hthToPth = s.hthToPth
  numHthreads : s'.pts.numHthreads = s.pts.numHthreads
  sent : s.SentRight → s'.SentRight

theorem Kept.refl (s : Scheduler) : Kept s s := ⟨rfl, rfl, rfl, rfl, id⟩

theorem Kept.trans {s₁ s₂ s₃ : Scheduler} (h : Kept s₁ s₂) (h' : Kept s₂ s₃) : Kept s₁ s₃ where
  live := h'.live.trans h.live
  pthToHth := h'.pthToHth.trans h.pthToHth
  hthToPth := h'.hthToPth.trans h.hthToPth
  numHthreads := h'.numHthreads.trans h.numHthreads
  sent hs := h'.sent (h.sent hs)

theorem Kept.mapped (h : Kept s s') (hm : s.Mapped) : s'.Mapped where
  injective := by
    rw [h.live, h.pthToHth]
    exact hm.injective
  below := by
    rw [h.live, h.pthToHth, h.numHthreads]
    exact hm.below
  inverse := by
    rw [h.live, h.pthToHth, h.hthToPth]
    exact hm.inverse
  places := by
    rw [h.numHthreads, h.hthToPth]
    exact hm.places
  sent := h.sent hm.sent

theorem Kept.slotOf (h : Kept s s') (t : Nat) : s'.slotOf t = s.slotOf t := by
  unfold Scheduler.slotOf
  rw [h.live, h.pthToHth]

@[simp] theorem slotOf_live {t : Nat} (h : t ∈ s.live) : s.slotOf t = s.pthToHth t := if_pos h

theorem Kept.then {α : Type} {f : α → Scheduler} {x : Except Stop α} (h : Kept s s')
    (hx : Meets (fun _ => True) (fun a => Kept s' (f a)) x) :
    Meets (fun _ => True) (fun a => Kept s (f a)) x :=
  hx.mono (fun _ ha => h.trans ha) fun _ h => h

theorem sends_kept {pts : Pts} {t n : Nat} (hp : Pts.SameHthreads s.pts pts)
    (hn : n = s.slotOf t) (op : Op) :
    Kept s (({ s with pts := pts }.asks op).sends t n) where
  live := rfl
  pthToHth := rfl
  hthToPth := rfl
  numHthreads := hp
  sent hs x hx := by
    rcases List.mem_append.mp hx with hx | hx
    · exact hs x hx
    · rw [List.mem_singleton.mp hx]
      exact hn

theorem addInstruction_kept {t n : Nat} (hn : n = s.slotOf t) (x : PtsInstr) :
    Meets (fun _ => True) (Kept s) (s.addInstruction t n x) := by
  unfold addInstruction
  simp only [meets_bind]
  exact (Pts.addInstruction_same _ _).mono (fun r h => sends_kept h hn _) fun _ h => h

theorem setStackNSize_kept {t n : Nat} (hn : n = s.slotOf t) (stack stacksize : Nat) :
    Meets (fun _ => True) (Kept s) (s.setStackNSize t n stack stacksize) := by
  unfold setStackNSize
  simp only [meets_bind]
  exact (Pts.setStackNSize_same _ _ _).mono (fun r h => sends_kept h hn _) fun _ h => h

theorem setActive_kept {t n : Nat} (hn : n = s.slotOf t) (isActive : Bool) :
    Meets (fun _ => True) (Kept s) (s.setActive t n isActive) := by
  unfold setActive
  simp only [meets_bind]
  exact (Pts.setActive_same _ _).mono (fun r h => sends_kept h hn _) fun _ h => h

theorem getCurrTime_kept : Meets (fun _ => True) (Kept s) s.getCurrTime := by
  unfold getCurrTime
  simp only [meets_bind]
  exact Pts.getCurrTime_same.mono (fun r h => ⟨rfl, rfl, rfl, h, id⟩) fun _ h => h

theorem getStackSz_kept :
    Meets (fun _ => True) (fun r => Kept s r.1 ∧ r.1.current = s.current) s.getStackSz := by
  unfold getStackSz
  simp only [meets_bind]
  exact (Pts.getParamUint64_same _ _).mono (fun r h => ⟨⟨rfl, rfl, rfl, h, id⟩, rfl⟩) fun _ h => h

theorem setThread_kept (t : Nat) (p : ThreadState) : Kept s (s.setThread t p) :=
  ⟨rfl, rfl, rfl, rfl, id⟩

theorem setActiveState_kept {t : Nat} (ht : asHthread t = s.slotOf t) (isActive : Bool) :
    Meets (fun _ => True) (Kept s) (s.setActiveState t isActive) := by
  unfold setActiveState
  split
  · trivial
  · have set := setThread_kept (s := s) t { s.pthreads t with active := isActive }
    exact set.then (setActive_kept (ht.trans (set.slotOf t).symm) isActive)

theorem switchTo_kept (mustSwitch : Bool) (t : Nat) : Kept s (s.switchTo mustSwitch t) := by
  unfold switchTo
  dsimp only
  split
  · exact setThread_kept t _
  · split
    · exact ⟨rfl, rfl, rfl, rfl, id⟩
    · exact ⟨rfl, rfl, rfl, rfl, id⟩

theorem resumeSimulation_kept (mustSwitch killed : Bool) :
    Meets (fun _ => True) (Kept s) (s.resumeSimulation mustSwitch killed) := by
  unfold resumeSimulation
  simp only [meets_bind]
  refine (Pts.resumeSimulation_same mustSwitch killed).mono (fun r h => ?_) fun _ h => h
  split
  · split
    · have answered : Kept s
        ({ s with pts := r.1, currTime := r.2.2 }.asks (.resumeSimulation mustSwitch killed)) :=
        ⟨rfl, rfl, rfl, h, id⟩
      exact answered.trans (switchTo_kept mustSwitch _)
    · trivial
  · trivial

theorem announceBarrier_kept {t : Nat} (ht : t ∈ s.live) (barrier nPart : Nat) :
    Meets (fun _ => True) (Kept s) (s.announceBarrier t barrier nPart) := by
  unfold announceBarrier
  split
  · exact Kept.refl s
  · exact addInstruction_kept (slotOf_live ht).symm _

theorem deschedule_kept {t : Nat} (ht : asHthread t = s.slotOf t) :
    Meets (fun _ => True) (Kept s) (s.deschedule t) := by
  unfold deschedule
  simp only [meets_bind]
  refine (setActiveState_kept ht false).mono (fun r h => ?_) fun _ h => h
  split
  · trivial
  · split
    · trivial
    · have counted : Kept s { r with nactive := r.nactive - 1 } :=
        ⟨h.live, h.pthToHth, h.hthToPth, h.numHthreads, h.sent⟩
      exact counted.then ((setThread_kept _ _).then (resumeSimulation_kept true false))

theorem blockThread_kept {t : Nat} (ht : asHthread t = s.slotOf t) (barrier nPart : Nat) :
    Meets (fun _ => True) (Kept s) (s.blockThread t barrier nPart) := by
  unfold blockThread
  split
  · trivial
  · rename_i live
    simp only [meets_bind]
    refine (announceBarrier_kept (not_not.mp live) barrier nPart).mono (fun r h => ?_) fun _ h => h
    split
    · exact h.then (deschedule_kept (ht.trans (h.slotOf t).symm))
    · trivial

theorem unblockThread_kept {t : Nat} (ht : asHthread t = s.slotOf t) :
    Meets (fun _ => True) (Kept s) (s.unblockThread t) := by
  unfold unblockThread
  split
  · trivial
  · rename_i h
    have live : t ∈ s.live := not_not.mp fun hn => h (.inl hn)
    simp only [meets_bind]
    refine (setActiveState_kept ht true).mono (fun r hr => ?_) fun _ h => h
    have liveAfter : t ∈ r.live := hr.live ▸ live
    refine (hr.then (addInstruction_kept (slotOf_live liveAfter).symm _)).mono
      (fun r' h' => ?_) fun _ h => h
    exact ⟨h'.live, h'.pthToHth, h'.hthToPth, h'.numHthreads, h'.sent⟩

theorem addSynchInstruction_kept (t : Nat) (islock isunlock : Bool) (barrier nPart : Nat) :
    Meets (fun _ => True) (Kept s) (s.addSynchInstruction t islock isunlock barrier nPart) := by
  unfold addSynchInstruction
  split
  · trivial
  · split
    · exact Kept.refl s
    · split
      · trivial
      · rename_i live
        have right := slotOf_live (not_not.mp live)
        split
        · exact addInstruction_kept right.symm _
        · exact addInstruction_kept right.symm _

theorem processIns_kept (hasContext : Bool) (x : PtsInstr) :
    Meets (fun _ => True) (Kept s) (s.processIns hasContext x) := by
  unfold processIns
  split
  · trivial
  · rename_i live
    dsimp only
    split
    · exact setThread_kept _ _
    · split
      · exact Kept.refl s
      · simp only [meets_bind]
        refine (Pts.addInstruction_same _ _).mono (fun r h => ?_) fun _ h => h
        have sent := sends_kept h (slotOf_live (not_not.mp live)).symm
        split
        · exact sent _
        · split
          · exact ((sent _).trans (setThread_kept _ _)).then (resumeSimulation_kept false false)
          · exact (sent _).then (resumeSimulation_kept false false)

theorem setStack_kept (stackPtr : Nat)
    (h : (s.pthreads s.current).stack = 0 → asHthread s.current = s.slotOf s.current) :
    Meets (fun _ => True) (Kept s) (s.setStack stackPtr) := by
  unfold setStack
  split
  · trivial
  · split
    · exact Kept.refl s
    · rename_i null
      simp only [meets_bind]
      refine getStackSz_kept.mono (fun r hr => ?_) fun _ h => h
      have right : asHthread r.1.current = r.1.slotOf r.1.current := by
        rw [hr.2, hr.1.slotOf]
        exact h (not_not.mp null)
      exact (hr.1.trans (setThread_kept s.current _)).then
        (setStackNSize_kept (s := r.1.setThread s.current _) right _ _)

theorem newThread_kept (hasStartctxt : Bool) (mapped : Nat) :
    Meets (fun _ => True) (fun r => Kept s r.1) (s.newThread hasStartctxt mapped) := by
  unfold newThread
  split
  · exact Kept.refl s
  · simp only [meets_bind]
    exact getStackSz_kept.mono (fun r h => h.1) fun _ h => h

/-- The live threads hold the hthread numbers below their count. -/
def Dense (s : Scheduler) : Prop := ∀ t ∈ s.live, s.pthToHth t < s.live.card

instance (s : Scheduler) : Decidable s.Dense :=
  inferInstanceAs (Decidable (∀ t ∈ s.live, s.pthToHth t < s.live.card))

theorem enter_mapped (h : s.Mapped) (dense : s.Dense) {t : Nat} (ht : t ∉ s.live)
    (room : s.live.card < s.pts.numHthreads) (p : ThreadState) : (s.enter t p).Mapped := by
  have old : ∀ u ∈ s.live, (s.enter t p).pthToHth u = s.pthToHth u := fun u hu =>
    Function.update_of_ne (fun he : u = t => ht (he ▸ hu)) _ _
  have new : (s.enter t p).pthToHth t = s.live.card := Function.update_self _ _ _
  have place : s.live.card ≤ s.hthToPth.length := room.le.trans h.places
  constructor
  · intro u hu v hv he
    rcases Finset.mem_insert.mp hu with rfl | hu'
    · rcases Finset.mem_insert.mp hv with rfl | hv'
      · rfl
      · rw [new, old v hv'] at he
        exact absurd he (dense v hv').ne'
    · rcases Finset.mem_insert.mp hv with rfl | hv'
      · rw [new, old u hu'] at he
        exact absurd he (dense u hu').ne
      · rw [old u hu', old v hv'] at he
        exact h.injective u hu' v hv' he
  · intro u hu
    rcases Finset.mem_insert.mp hu with rfl | hu
    · rw [new]
      exact room
    · rw [old u hu]
      exact h.below u hu
  · intro u hu
    show (s.hthToPth.insertIdx s.live.card (some t))[(s.enter t p).pthToHth u]? = some (some u)
    rcases Finset.mem_insert.mp hu with rfl | hu
    · rw [new, List.getElem?_insertIdx_self, if_pos place]
    · rw [old u hu, List.getElem?_insertIdx_of_lt (dense u hu)]
      exact h.inverse u hu
  · show s.pts.numHthreads ≤ (s.hthToPth.insertIdx s.live.card (some t)).length
    exact h.places.trans (List.length_le_length_insertIdx)
  · exact h.sent

theorem announce_kept {t n : Nat} (hn : n = s.slotOf t) (p : ThreadState) :
    Meets (fun _ => True) (Kept s) (s.announce t n p) := by
  unfold announce
  simp only [meets_bind]
  refine (setStackNSize_kept hn _ _).mono (fun r h => ?_) fun _ h => h
  refine (h.then (setActive_kept (hn.trans (h.slotOf t).symm) _)).mono (fun r h => ?_) fun _ h => h
  refine (h.then getCurrTime_kept).mono (fun r h => ?_) fun _ h => h
  split
  · exact h
  · exact h.then (addInstruction_kept (hn.trans (h.slotOf t).symm) _)

theorem addThread_mapped (h : s.Mapped) (dense : s.Dense) {t : Nat}
    (room : s.live.card < s.pts.numHthreads) (hasStartctxt : Bool) (mapped : Nat) :
    Meets (fun _ => True) Mapped (s.addThread t hasStartctxt mapped) := by
  unfold addThread
  split
  · trivial
  · rename_i fresh
    simp only [meets_bind]
    refine (newThread_kept hasStartctxt mapped).mono (fun r hr => ?_) fun _ h => h
    split
    · trivial
    · have dense' : r.1.Dense := by
        unfold Dense
        rw [hr.live, hr.pthToHth]
        exact dense
      have room' : r.1.live.card < r.1.pts.numHthreads := by
        rw [hr.live, hr.numHthreads]
        exact room
      have entered : (r.1.enter t r.2).Mapped :=
        enter_mapped (hr.mapped h) dense' (hr.live ▸ fresh) room' r.2
      have slot : s.live.card = (r.1.enter t r.2).slotOf t := by
        rw [slotOf_live (Finset.mem_insert_self t r.1.live)]
        show s.live.card = Function.update r.1.pthToHth t r.1.live.card t
        rw [Function.update_self, hr.live]
      exact (announce_kept slot r.2).mono (fun s' h' => h'.mapped entered) fun _ h => h

theorem killThread_mapped (h : s.Mapped) (t : Nat) :
    Meets (fun _ => True) Mapped (s.killThread t) := by
  unfold killThread
  split
  · trivial
  · simp only [meets_bind]
    refine (setStackNSize_kept rfl 0 0).mono (fun r hr => ?_) fun _ h => h
    refine (hr.then (setActive_kept (hr.slotOf t).symm false)).mono (fun r hr => ?_) fun _ h => h
    refine (hr.then getCurrTime_kept).mono (fun r hr => ?_) fun _ h => h
    have kept := hr.mapped h
    exact {
      injective := fun u hu v hv =>
        kept.injective u (Finset.mem_of_mem_erase hu) v (Finset.mem_of_mem_erase hv)
      below := fun u hu => kept.below u (Finset.mem_of_mem_erase hu)
      inverse := fun u hu => kept.inverse u (Finset.mem_of_mem_erase hu)
      places := kept.places
      sent := kept.sent }

/-- A thread enters while there is an hthread for it and the live ones are `Dense`. A thread's id
goes out only where it is also the number of its hthread. -/
def Fits (s : Scheduler) : SchedulerCall → Prop
  | .addThread _ _ _ => s.live.card < s.pts.numHthreads ∧ s.Dense
  | .blockThread t _ _ => asHthread t = s.slotOf t
  | .unblockThread t => asHthread t = s.slotOf t
  | .setStack _ => (s.pthreads s.current).stack = 0 → asHthread s.current = s.slotOf s.current
  | _ => True

def RunFits (s : Scheduler) : List SchedulerCall → Prop
  | [] => True
  | c :: calls => s.Fits c ∧ ∀ s', s.call c = .ok s' → s'.RunFits calls

theorem call_mapped (h : s.Mapped) {c : SchedulerCall} (fits : s.Fits c) :
    Meets (fun _ => True) Mapped (s.call c) := by
  have kept : ∀ {x : Except Stop Scheduler}, Meets (fun _ => True) (Kept s) x →
      Meets (fun _ => True) Mapped x := fun hx => hx.mono (fun _ hk => hk.mapped h) fun _ h => h
  cases c with
  | addThread t hasStartctxt mapped => exact addThread_mapped h fits.2 fits.1 hasStartctxt mapped
  | killThread t => exact killThread_mapped h t
  | blockThread t barrier nPart => exact kept (blockThread_kept fits barrier nPart)
  | unblockThread t => exact kept (unblockThread_kept fits)
  | addSynchInstruction t islock isunlock barrier nPart =>
    exact kept (addSynchInstruction_kept t islock isunlock barrier nPart)
  | processIns hasContext x => exact kept (processIns_kept hasContext x)
  | resumeSimulation mustSwitch killed => exact kept (resumeSimulation_kept mustSwitch killed)
  | setStack stackPtr => exact kept (setStack_kept stackPtr fits)
  | mark skip spin =>
    show Meets (fun _ => True) Mapped (s.mark skip spin)
    unfold mark
    split
    · trivial
    · exact (setThread_kept s.current _).mapped h

theorem mapped_of_run (h : s.Mapped) {calls : List SchedulerCall} (fits : s.RunFits calls)
    (hr : s.run calls = .ok s') : s'.Mapped := by
  induction calls generalizing s with
  | nil =>
    cases hr
    exact h
  | cons c calls ih =>
    have first := call_mapped h fits.1
    simp only [run, List.foldlM_cons] at hr
    cases hc : s.call c with
    | error e =>
      rw [hc] at hr
      cases hr
    | ok s₁ =>
      rw [hc] at hr first
      exact ih first (fits.2 s₁ hc) hr

theorem start_mapped (numHthreads : Nat) (replies : Nat → Reply) (ignoreSkipInstrs : Bool) :
    (start numHthreads replies ignoreSkipInstrs).Mapped where
  injective t ht := absurd ht (Finset.notMem_empty t)
  below t ht := absurd ht (Finset.notMem_empty t)
  inverse t ht := absurd ht (Finset.notMem_empty t)
  places := (List.length_replicate (n := numHthreads)).ge
  sent _ hx := absurd hx List.not_mem_nil

/-- `resume_simulation` goes on with the thread whose hthread the simulator names. -/
def Selects (s : Scheduler) : Prop :=
  ∀ t ∈ s.live, ∀ mustSwitch killed pts time s',
    s.pts.resumeSimulation mustSwitch killed = .ok (pts, s.pthToHth t, time) →
    s.resumeSimulation mustSwitch killed = .ok s' → s'.current = t

theorem switchTo_current (mustSwitch : Bool) (t : Nat) : (s.switchTo mustSwitch t).current = t := by
  unfold switchTo
  dsimp only
  split
  · rename_i h
    exact h.1.symm
  · split <;> rfl

theorem Mapped.selects (h : s.Mapped) : s.Selects := by
  intro t ht mustSwitch killed pts time s' named hs'
  simp only [resumeSimulation, named, bind, Except.bind, asks_hthToPth, h.inverse t ht] at hs'
  rw [if_pos (by simpa using ht)] at hs'
  cases hs'
  exact switchTo_current mustSwitch t

theorem run_mapped (numHthreads : Nat) (replies : Nat → Reply) (ignoreSkipInstrs : Bool)
    {calls : List SchedulerCall} (fits : (start numHthreads replies ignoreSkipInstrs).RunFits calls)
    (hr : (start numHthreads replies ignoreSkipInstrs).run calls = .ok s) :
    s.Mapped ∧ s.Selects :=
  have mapped := mapped_of_run (start_mapped numHthreads replies ignoreSkipInstrs) fits hr
  ⟨mapped, mapped.selects⟩

theorem run_mapped_two : ∃ s, (start 2 (fun _ => {}) false).run
    [.addThread 0 false 0, .addThread 1 true 4096, .blockThread 0 0 0] = .ok s ∧ s.Mapped ∧
      s.Selects := by
  have ends : ∃ s, (start 2 (fun _ => {}) false).run
      [.addThread 0 false 0, .addThread 1 true 4096, .blockThread 0 0 0] = .ok s := ⟨_, rfl⟩
  obtain ⟨s, hs⟩ := ends
  refine ⟨s, hs, run_mapped 2 (fun _ => {}) false ?_ hs⟩
  refine ⟨⟨by decide, by decide⟩, fun s₁ h₁ => ?_⟩
  cases h₁
  refine ⟨⟨by decide, by decide⟩, fun s₂ h₂ => ?_⟩
  cases h₂
  exact ⟨rfl, fun s₃ h₃ => trivial⟩

/-- A thread that enters after an exit gets the hthread of a live one. -/
theorem reused_hthread : ∃ s, (start 4 (fun _ => {}) false).run
    [.addThread 0 false 0, .addThread 1 true 4096, .addThread 2 true 8192, .killThread 1,
      .addThread 3 true 4096] = .ok s ∧
    s.live.card ≤ s.pts.numHthreads ∧ 2 ∈ s.live ∧ 3 ∈ s.live ∧ s.pthToHth 2 = s.pthToHth 3 ∧
    ¬ s.Mapped := by
  refine ⟨_, rfl, by decide, by decide, by decide, by decide, fun h => ?_⟩
  have same := h.injective 2 (by decide) 3 (by decide) (by decide)
  omega

end Scheduler
end McSim.Pthread
