import McSim.O3CoreRings

/-! The clock of a core.
Whatever a core schedules for itself is a latency after the tick it runs at, or an answer's time
rounded up. The constructor rounds all latencies up to the clock but that of an x87 instruction. -/

namespace McSim

/-- What the constructor makes of the parameters; the members have 32 bits. -/
def O3CoreConfig.construct (param : O3CoreConfig) : O3CoreConfig :=
  { param with
    branchMissPenalty := ceilByY param.branchMissPenalty param.processInterval % 2 ^ 32
    lockT := ceilByY param.lockT param.processInterval % 2 ^ 32
    unlockT := ceilByY param.unlockT param.processInterval % 2 ^ 32
    barrierT := ceilByY param.barrierT param.processInterval % 2 ^ 32 }

/-- All latencies but `sseT` are multiples of the interval. -/
structure O3CoreConfig.Rounded (cfg : O3CoreConfig) : Prop where
  branchMissPenalty : cfg.processInterval ∣ cfg.branchMissPenalty
  branchMiss : cfg.processInterval ∣ (cfg.branchMissPenalty + cfg.processInterval) % 2 ^ 32
  lockT : cfg.processInterval ∣ cfg.lockT
  unlockT : cfg.processInterval ∣ cfg.unlockT
  barrierT : cfg.processInterval ∣ cfg.barrierT

theorem O3CoreConfig.construct_rounded {param : O3CoreConfig}
    (branchMiss : ceilByY param.branchMissPenalty param.processInterval + param.processInterval <
      2 ^ 32)
    (lock : ceilByY param.lockT param.processInterval < 2 ^ 32)
    (unlock : ceilByY param.unlockT param.processInterval < 2 ^ 32)
    (barrier : ceilByY param.barrierT param.processInterval < 2 ^ 32) :
      param.construct.Rounded := by
  have fits : ∀ n, ceilByY n param.processInterval < 2 ^ 32 →
      param.processInterval ∣ ceilByY n param.processInterval % 2 ^ 32 := fun n small => by
    rw [Nat.mod_eq_of_lt small]
    exact dvd_ceilByY n _
  have penalty : ceilByY param.branchMissPenalty param.processInterval < 2 ^ 32 :=
    (Nat.le_add_right _ _).trans_lt branchMiss
  refine ⟨fits _ penalty, ?_, fits _ lock, fits _ unlock, fits _ barrier⟩
  show param.processInterval ∣ (ceilByY param.branchMissPenalty param.processInterval % 2 ^ 32 +
    param.processInterval) % 2 ^ 32
  rw [Nat.mod_eq_of_lt penalty, Nat.mod_eq_of_lt branchMiss]
  exact Nat.dvd_add (dvd_ceilByY _ _) (Nat.dvd_refl _)

def O3Instr.Slow (x : O3Instr) : Prop := x.type = .insX87 ∧ x.noMem = true

instance : DecidablePred O3Instr.Slow := fun _ => inferInstanceAs (Decidable (_ ∧ _))

def O3Rob.Slow (e : O3Rob) : Prop := e.type = .insX87 ∧ e.memaddr = 0

namespace O3Core

variable {cfg : O3CoreConfig} {s s' s₁ : O3Core} {t k : Nat}

/-- The core is on its clock, and where it has an instruction that takes `sseT`, that is on it
too. -/
structure Clocked (cfg : O3CoreConfig) (s : O3Core) : Prop where
  events : ∀ t ∈ s.events, cfg.processInterval ∣ t
  rob : ∀ k, (s.o3rob.slots k).Slow → cfg.processInterval ∣ cfg.sseT
  queue : ∀ k, (s.o3queue.slots k).instr.Slow → cfg.processInterval ∣ cfg.sseT

theorem latency_dvd (hr : cfg.Rounded) {e : O3Rob}
    (slow : e.type = .insX87 → cfg.processInterval ∣ cfg.sseT) :
    cfg.processInterval ∣ e.latency cfg := by
  unfold O3Rob.latency
  split
  · exact hr.lockT
  · split
    · exact hr.unlockT
    · split
      · exact hr.barrierT
      · split
        · rename_i x87
          exact slow x87
        · split
          · exact hr.branchMiss
          · exact Nat.dvd_refl _

namespace Clocked

theorem of_same (h : Clocked cfg s) (events : s'.events = s.events) (rob : s'.o3rob = s.o3rob)
    (queue : s'.o3queue = s.o3queue) : Clocked cfg s' :=
  ⟨events ▸ h.events, rob ▸ h.rob, queue ▸ h.queue⟩

theorem addEvent (h : Clocked cfg s) (ht : cfg.processInterval ∣ t) :
    Clocked cfg (s.addEvent t) where
  events u hu := by
    rcases Finset.mem_insert.mp hu with rfl | hu
    · exact ht
    · exact h.events u hu
  rob := h.rob
  queue := h.queue

theorem retry (h : Clocked cfg s) (ht : cfg.processInterval ∣ t) : Clocked cfg (retry cfg t s) :=
  h.addEvent (Nat.dvd_add ht (Nat.dvd_refl _))

theorem writeRob (h : Clocked cfg s) {e : O3Rob} (he : e.Slow → cfg.processInterval ∣ cfg.sseT) :
    Clocked cfg (s.writeRob k e) where
  events := h.events
  rob j slow := by
    have slow : (Function.update s.o3rob.slots k e j).Slow := slow
    by_cases here : j = k
    · rw [here, Function.update_self] at slow
      exact he slow
    · rw [Function.update_of_ne here] at slow
      exact h.rob j slow
  queue := h.queue

theorem rewriteRob (h : Clocked cfg s) {e : O3Rob} (type : e.type = (s.o3rob.slots k).type)
    (memaddr : e.memaddr = (s.o3rob.slots k).memaddr) : Clocked cfg (s.writeRob k e) :=
  h.writeRob fun slow => h.rob k ⟨type ▸ slow.1, memaddr ▸ slow.2⟩

theorem writeQueue (h : Clocked cfg s) {e : O3Queue}
    (he : e.instr.Slow → cfg.processInterval ∣ cfg.sseT) : Clocked cfg (s.writeQueue k e) where
  events := h.events
  rob := h.rob
  queue j slow := by
    have slow : (Function.update s.o3queue.slots k e j).instr.Slow := slow
    by_cases here : j = k
    · rw [here, Function.update_self] at slow
      exact he slow
    · rw [Function.update_of_ne here] at slow
      exact h.queue j slow

theorem complete (h : Clocked cfg s) (ht : cfg.processInterval ∣ t) :
    Clocked cfg (s.complete k t) := by
  have written : Clocked cfg (s.writeRob k
      { s.o3rob.slots k with state := .completed, readyTime := t }) := h.rewriteRob rfl rfl
  exact written.addEvent ht

theorem fetch (h : Clocked cfg s) : Clocked cfg (fetch cfg t s) := by
  have one : ∀ (p : O3Core × Nat) i, Clocked cfg p.1 → Clocked cfg (fetchOne cfg t p i).1 := by
    intro p i h
    have loading := h.writeQueue (k := p.1.o3queue.slot i)
      (e := { p.1.o3queue.get i with state := .beingLoaded }) (h.queue _)
    unfold fetchOne
    dsimp only
    split
    · exact h
    · split
      · split
        · exact loading.of_same rfl rfl rfl
        · exact loading.of_same rfl rfl rfl
      · split
        · exact loading
        · exact h
  have loop : ∀ (is : List Nat) (p : O3Core × Nat), Clocked cfg p.1 →
      Clocked cfg (is.foldl (fetchOne cfg t) p).1 := by
    intro is
    induction is with
    | nil => exact fun _ h => h
    | cons i is ih => exact fun p h => ih _ (one p i h)
  exact loop _ (s, 0) h

theorem scratch (h : Clocked cfg s) (x : O3Instr) : Clocked cfg (scratch cfg t x s) :=
  h.rewriteRob rfl rfl

theorem push (h : Clocked cfg s) {e : O3Rob} (he : e.Slow → cfg.processInterval ∣ cfg.sseT) :
    Clocked cfg { s with o3rob := s.o3rob.push e } :=
  have written := h.writeRob (k := s.o3rob.slot s.o3rob.size) he
  ⟨written.events, written.rob, written.queue⟩

theorem fill (h : Clocked cfg s) {x : O3Instr} {d : Deps} {memaddr : Nat}
    {memDep instrDep : Option Nat}
    (slow : x.type = .insX87 → memaddr = 0 → cfg.processInterval ∣ cfg.sseT) :
    Clocked cfg (s.fill x d k memaddr memDep instrDep) :=
  h.push fun hx => slow hx.1 hx.2

theorem issuePart (h : Clocked cfg s) (x : O3Instr) (d : Deps) (dep : Option Nat) (k : Nat) :
    Clocked cfg (issuePart cfg t x d (s, dep) k).1 := by
  unfold O3Core.issuePart
  dsimp only
  split
  · exact h.scratch x
  · rename_i some
    exact (h.scratch x).fill fun _ zero => absurd zero some

theorem dequeue (h : Clocked cfg s) (x : O3Instr) : Clocked cfg (s.dequeue x) :=
  have written := h.writeQueue (k := s.o3queue.head)
    (e := { s.o3queue.slots s.o3queue.head with state := .invalid }) (h.queue _)
  ⟨written.events, written.rob, written.queue⟩

theorem issueInstr (h : Clocked cfg s) (ht : cfg.processInterval ∣ t) {x : O3Instr}
    (slow : x.Slow → cfg.processInterval ∣ cfg.sseT) : Clocked cfg (issueInstr cfg t x s) := by
  have predicted : Clocked cfg (predict cfg t x s) :=
    Clocked.addEvent (s := { s with bp := (s.branchMiss x).1 }) (h.of_same rfl rfl rfl)
      (Nat.dvd_add ht (Nat.dvd_refl _))
  have parts : ∀ (ks : List Nat) (p : O3Core × Option Nat), Clocked cfg p.1 →
      Clocked cfg (ks.foldl (O3Core.issuePart cfg t x (s.deps t x)) p).1 := by
    intro ks
    induction ks with
    | nil => exact fun _ h => h
    | cons k ks ih => exact fun p h => ih _ (h.issuePart x _ p.2 k)
  have folded := parts [0, 1, 2] (predict cfg t x s, none) predicted
  have filled : Clocked cfg (issueNoMem cfg t x (s.deps t x)
      ([0, 1, 2].foldl (O3Core.issuePart cfg t x (s.deps t x)) (predict cfg t x s, none))) := by
    unfold issueNoMem
    dsimp only
    split
    · rename_i noMem
      exact (folded.scratch x).fill fun x87 _ => slow ⟨x87, noMem⟩
    · exact folded.scratch x
  exact filled.dequeue x

theorem issue (h : Clocked cfg s) (ht : cfg.processInterval ∣ t) : Clocked cfg (issue cfg t s) :=
  issueLoop_keeps (fun _ hp _ _ _ _ => hp.issueInstr ht (hp.queue _)) _ h

theorem access (h : Clocked cfg s) {n : Nat} : Clocked cfg (access cfg t k n s) := by
  have started : Clocked cfg (s.writeRob k { s.o3rob.slots k with state := .executing }) :=
    h.rewriteRob rfl rfl
  unfold O3Core.access
  dsimp only
  split
  · exact started.of_same rfl rfl rfl
  · exact started.of_same rfl rfl rfl

theorem start (hr : cfg.Rounded) (h : Clocked cfg s) (ht : cfg.processInterval ∣ t) (i : Nat)
    (u : Units) : Clocked cfg (start cfg t i s u).1 := by
  unfold O3Core.start
  dsimp only
  split
  · rename_i alu
    refine h.complete (Nat.dvd_add ht (latency_dvd hr fun x87 => ?_))
    exact h.rob _ ⟨x87, alu.1⟩
  · split
    · exact h.access
    · exact h

theorem executeOne (hr : cfg.Rounded) (h : Clocked cfg s) (ht : cfg.processInterval ∣ t) (i : Nat)
    (u : Units) : Clocked cfg (executeOne cfg t i s u).1.1 := by
  have migrated : ∀ m, Clocked cfg { s with isMigrateReady := m } := fun m => h.of_same rfl rfl rfl
  unfold O3Core.executeOne
  dsimp only
  split
  · split
    · split
      · exact (migrated _).complete (Nat.dvd_add ht hr.barrierT)
      · exact h.retry ht
    · split
      · split
        · exact (migrated _).complete (Nat.dvd_add ht (Nat.dvd_refl _))
        · exact h.retry ht
      · split
        · exact h.start hr ht i u
        · split
          · exact h.retry ht
          · exact h
  · split
    · exact h.retry ht
    · exact h

theorem execute (hr : cfg.Rounded) (h : Clocked cfg s) (ht : cfg.processInterval ∣ t) :
    Clocked cfg (execute cfg t s) := by
  have loop : ∀ (is : List Nat) (s : O3Core) (u : Units), Clocked cfg s →
      Clocked cfg (executeLoop cfg t is s u) := by
    intro is
    induction is with
    | nil => exact fun _ _ h => h
    | cons i is ih =>
      intro s u h
      have one := h.executeOne hr ht i u
      unfold executeLoop
      dsimp only
      split
      · exact ih _ _ one
      · exact one
  exact loop _ s {} h

theorem phases (hr : cfg.Rounded) (hc : Consistent cfg s) (h : Clocked cfg s)
    (ht : cfg.processInterval ∣ t) : Clocked cfg (phases cfg t s) := by
  have fetched : Consistent cfg (O3Core.fetch cfg t s) :=
    (fetch_fetched hc.rings.queueSize).1.consistent hc
  have hs := (execute_consistent (t := t) (issue_consistent (t := t) fetched)).rings.robSize.le
  have executed := ((h.fetch (t := t)).issue ht).execute hr ht
  have woken : Clocked cfg (wake cfg t (O3Core.execute cfg t (O3Core.issue cfg t
      (O3Core.fetch cfg t s)))) :=
    (wake_keeps (fun _ hp => hp.retry ht) (fun _ _ _ hp _ _ _ _ _ => hp.rewriteRob rfl rfl) hs
      executed).1
  refine commit_keeps (fun _ hp => hp.retry ht) (fun s hp _ _ => ?_) woken
  have left : Clocked cfg (s.writeRob s.o3rob.head
      { s.o3rob.slots s.o3rob.head with state := .invalid }) := hp.rewriteRob rfl rfl
  exact ⟨left.events, left.rob, left.queue⟩

theorem dispatch (hr : cfg.Rounded) (hc : Consistent cfg s) (h : Clocked cfg s)
    (ht : t ∈ s.events) :
    Clocked cfg (dispatch cfg s t).1 := by
  have aligned := h.events t ht
  have taken : Clocked cfg (s.take t) :=
    ⟨fun u hu => h.events u (Finset.mem_of_mem_erase hu), h.rob, h.queue⟩
  have skipped : Clocked cfg (skip cfg t (s.take t)) := by
    unfold skip
    split
    · exact ⟨taken.events, taken.rob, taken.queue⟩
    · exact taken
  have consistent : Consistent cfg (skip cfg t (s.take t)) :=
    skip_consistent (hc.of_same rfl rfl rfl rfl rfl rfl)
  unfold O3Core.dispatch processEvent
  dsimp only
  split
  · exact skipped.addEvent aligned
  · exact skipped.phases hr consistent aligned

theorem addInstruction (h : Clocked cfg s) {x : Pthread.PtsInstr}
    (ht : cfg.processInterval ∣ x.currTime)
    (slow : (o3Instr cfg x).Slow → cfg.processInterval ∣ cfg.sseT) :
    Clocked cfg (addInstruction cfg s x).1 := by
  have woken : Clocked cfg (s.wakeUp x.currTime) := by
    unfold wakeUp
    split
    · exact h.addEvent ht
    · exact h
  unfold O3Core.addInstruction
  dsimp only
  generalize s.wakeUp x.currTime = s at *
  split
  · exact woken.of_same rfl rfl rfl
  · have pushed := woken.writeQueue (k := s.o3queue.slot s.o3queue.size)
      (e := { state := .notInQueue, readyTime := x.currTime, instr := o3Instr cfg x }) slow
    exact ⟨pushed.events, pushed.rob, pushed.queue⟩

theorem loaded (h : Clocked cfg s) {address : Nat} (ht : cfg.processInterval ∣ t) :
    Clocked cfg (loaded cfg s t address) := by
  have loop : ∀ (is : List Nat) (s : O3Core), Clocked cfg s →
      Clocked cfg (is.foldl (loadOne cfg t address) s) := by
    intro is
    induction is with
    | nil => exact fun _ h => h
    | cons i is ih =>
      intro s h
      refine ih _ ?_
      unfold loadOne
      dsimp only
      split
      · exact h.writeQueue (h.queue _)
      · exact h
  exact loop _ _ ((h.addEvent ht).of_same rfl rfl rfl)

theorem addRepEvent (hr : cfg.Rounded) (h : Clocked cfg s) {time : Nat} {lqe : Lqe CorePort}
    (hs : addRepEvent cfg s time lqe = .ok s') : Clocked cfg s' := by
  have aligned := dvd_ceilByY time cfg.processInterval
  have served : Clocked cfg (s.served (ceilByY time cfg.processInterval)) :=
    (h.addEvent aligned).of_same rfl rfl rfl
  unfold O3Core.addRepEvent at hs
  dsimp only at hs
  generalize (if (s.o3rob.slots lqe.robEntry.toNat).isread = true then EventType.read
    else EventType.write) = kind at hs
  split at hs
  · cases hs
    exact h.of_same rfl rfl rfl
  · split at hs
    · split at hs
      · cases hs
      · cases hs
        exact h.of_same rfl rfl rfl
    · split at hs
      · cases hs
      · cases hs
        refine served.complete (Nat.dvd_add aligned ?_)
        split
        · exact hr.branchMissPenalty
        · exact Nat.dvd_zero _

theorem answer (hr : cfg.Rounded) (h : Clocked cfg s) {n time : Nat} {type : EventType}
    (ha : answer cfg s n type time = .ok s') : Clocked cfg s' := by
  have answered : Clocked cfg (s.answered n) := h.of_same rfl rfl rfl
  obtain ⟨call, -, ⟨-, ha⟩ | ⟨-, ha⟩⟩ := answer_cases ha
  · rcases addReqEvent_cases ha with ⟨nacks, delay, rfl⟩ | rfl
    · exact answered.of_same rfl rfl rfl
    · exact answered.loaded (dvd_ceilByY _ _)
  · exact answered.addRepEvent hr ha

end Clocked
end O3Core

/-- Which cores have run, the tick of the component that ran last, and the times the frontend was
told -/
structure Cores where
  core : Nat → O3Core
  started : Nat → Bool := fun _ => false
  currTime : Nat := 0
  reported : List Nat := []

/-- A call of a core, the tick of another component, and `McSim::resume_simulation` without
events -/
inductive CoresEvent
  | core (i : Nat) (e : CoreEvent)
  | tick (t : Nat)
  | resumeIdle

namespace Cores

variable (param : O3CoreConfig)

def cfg (i : Nat) : O3CoreConfig := { param.construct with num := i }

def init : Cores := { core := fun i => O3Core.init (cfg param i) }

/-- `GlobalEventQueue::process_event` runs core `i`, which returns its number or that of all. -/
def dispatch (s : Cores) (i t : Nat) : Cores :=
  let r := O3Core.dispatch (cfg param i) (s.core i) t
  { core := Function.update s.core i r.1, started := Function.update s.started i true, currTime := t
    reported := if r.2 < param.numHthreads then t :: s.reported else s.reported }

def step (s : Cores) : CoresEvent → Except Abort Cores
  | .core i (.processEvent t) => .ok (s.dispatch param i t)
  | .core i e => do
    let c ← O3Core.step (cfg param i) (s.core i) e
    return { s with core := Function.update s.core i c }
  | .tick t => .ok { s with currTime := t }
  | .resumeIdle => .ok { s with reported := s.currTime :: s.reported }

/-- The frontend passes back times it was told, or starts a core on the clock. The queue runs a core
at its events. -/
def Told (s : Cores) : CoresEvent → Prop
  | .core i (.addInstruction x) => x.hthreadid = i ∧
      (x.currTime ∈ s.reported ∨ s.started i = false ∧ param.processInterval ∣ x.currTime)
  | .core i (.processEvent t) => t ∈ (s.core i).events
  | .resumeIdle => (∀ i < param.numHthreads, (s.core i).events = ∅) ∧
      ∃ i < param.numHthreads, (s.core i).active = true
  | _ => True

inductive Run (ok : Cores → CoresEvent → Prop) : Cores → Prop
  | init : Run ok (init param)
  | step {s s'} (e : CoresEvent) : Run ok s → Told param s e → ok s e → step param s e = .ok s' →
      Run ok s'

/-- An instruction that takes `sse_t` comes only if that is on the clock, and the frontend is told
no time off the clock when there are no events. -/
def OnClock (s : Cores) : CoresEvent → Prop
  | .core i (.addInstruction x) =>
      (O3Core.o3Instr (cfg param i) x).Slow → param.processInterval ∣ param.sseT
  | .resumeIdle => param.processInterval ∣ s.currTime
  | _ => True

variable {param} {s s' : Cores} {i : Nat}

theorem step_core {e : CoreEvent} (hs : step param s (.core i e) = .ok s') :
    ∃ c, O3Core.step (cfg param i) (s.core i) e = .ok c ∧ s'.core = Function.update s.core i c ∧
      ∀ t ∈ s'.reported, t ∈ s.reported ∨ e = .processEvent t := by
  have call : ∀ e : CoreEvent, (do
      let c ← O3Core.step (cfg param i) (s.core i) e
      return ({ s with core := Function.update s.core i c } : Cores)) = .ok s' →
      ∃ c, O3Core.step (cfg param i) (s.core i) e = .ok c ∧ s'.core = Function.update s.core i c ∧
        ∀ t ∈ s'.reported, t ∈ s.reported ∨ e = .processEvent t := by
    intro e hs
    cases hc : O3Core.step (cfg param i) (s.core i) e with
    | error a =>
      rw [hc] at hs
      cases hs
    | ok c =>
      rw [hc] at hs
      cases hs
      exact ⟨c, rfl, rfl, fun t ht => .inl ht⟩
  cases e with
  | processEvent t =>
    cases hs
    refine ⟨_, rfl, rfl, fun u hu => ?_⟩
    unfold dispatch at hu
    dsimp only at hu
    split at hu
    · rcases List.mem_cons.mp hu with rfl | hu
      · exact .inr rfl
      · exact .inl hu
    · exact .inl hu
  | addInstruction x => exact call _ hs
  | setActive isActive => exact call _ hs
  | answer n type time => exact call _ hs
  | migrate isMigrateReady => exact call _ hs
  | advance t => exact call _ hs

/-- All cores are on the clock, and so is what the frontend was told. -/
structure Clocked (param : O3CoreConfig) (s : Cores) : Prop where
  run : ∀ i, O3Core.Run (cfg param i) (s.core i)
  core : ∀ i, O3Core.Clocked (cfg param i) (s.core i)
  reported : ∀ t ∈ s.reported, param.processInterval ∣ t

theorem init_clocked (param : O3CoreConfig) : Clocked param (init param) where
  run _ := O3Core.Run.init
  core _ :=
    { events := fun t ht => absurd ht (Finset.notMem_empty t)
      rob := fun _ slow => by cases slow.1
      queue := fun _ slow => by cases slow.1 }
  reported t ht := absurd ht List.not_mem_nil

theorem Clocked.call (rounded : param.construct.Rounded) (h : Clocked param s) {e : CoreEvent}
    (told : Told param s (.core i e)) (ok : OnClock param s (.core i e)) {c : O3Core}
    (hs : O3Core.step (cfg param i) (s.core i) e = .ok c) : O3Core.Clocked (cfg param i) c := by
  have rounded : (cfg param i).Rounded := ⟨rounded.branchMissPenalty, rounded.branchMiss,
    rounded.lockT, rounded.unlockT, rounded.barrierT⟩
  have hc := O3Core.run_consistent (h.run i)
  cases e with
  | addInstruction x =>
    cases hs
    refine (h.core i).addInstruction ?_ ok
    exact told.2.elim (h.reported _) fun start => start.2
  | setActive isActive =>
    cases hs
    exact (h.core i).of_same rfl rfl rfl
  | processEvent t =>
    cases hs
    exact (h.core i).dispatch rounded hc told
  | answer n type time => exact (h.core i).answer rounded hs
  | migrate isMigrateReady =>
    cases hs
    exact (h.core i).of_same rfl rfl rfl
  | advance t =>
    cases hs
    exact (h.core i).of_same rfl rfl rfl

theorem Clocked.step (rounded : param.construct.Rounded) (h : Clocked param s) {e : CoresEvent}
    (told : Told param s e) (ok : OnClock param s e) (hs : Cores.step param s e = .ok s') :
    Clocked param s' := by
  cases e with
  | core i e =>
    obtain ⟨c, hc, core, reported⟩ := step_core hs
    have clocked := h.call rounded told ok hc
    refine ⟨fun j => ?_, fun j => ?_, fun t ht => ?_⟩
    · rw [core]
      by_cases here : j = i
      · rw [here, Function.update_self]
        exact (h.run i).step e hc
      · rw [Function.update_of_ne here]
        exact h.run j
    · rw [core]
      by_cases here : j = i
      · rw [here, Function.update_self]
        exact clocked
      · rw [Function.update_of_ne here]
        exact h.core j
    · rcases reported t ht with old | rfl
      · exact h.reported t old
      · exact (h.core i).events t told
  | tick t =>
    cases hs
    exact ⟨h.run, h.core, h.reported⟩
  | resumeIdle =>
    cases hs
    refine ⟨h.run, h.core, fun t ht => ?_⟩
    rcases List.mem_cons.mp ht with rfl | ht
    · exact ok
    · exact h.reported t ht

theorem run_clocked (rounded : param.construct.Rounded) (h : Run param (OnClock param) s) :
    Clocked param s := by
  induction h with
  | init => exact init_clocked param
  | step e _ told ok hs ih => exact ih.step rounded told ok hs

/-- As long as what takes `sse_t` is on the clock, the cores stay on it. -/
theorem run_aligned (rounded : param.construct.Rounded) (h : Run param (OnClock param) s) :
    (∀ i, ∀ t ∈ (s.core i).events, param.processInterval ∣ t) ∧
      ∀ t ∈ s.reported, param.processInterval ∣ t :=
  ⟨fun i => ((run_clocked rounded h).core i).events, (run_clocked rounded h).reported⟩

instance (s : Cores) : DecidablePred (Told param s)
  | .core i (.addInstruction x) => inferInstanceAs (Decidable (x.hthreadid = i ∧
      (x.currTime ∈ s.reported ∨ s.started i = false ∧ param.processInterval ∣ x.currTime)))
  | .core i (.processEvent t) => inferInstanceAs (Decidable (t ∈ (s.core i).events))
  | .core _ (.setActive _) | .core _ (.answer ..) | .core _ (.migrate _) | .core _ (.advance _) =>
    isTrue trivial
  | .tick _ => isTrue trivial
  | .resumeIdle => inferInstanceAs (Decidable ((∀ i < param.numHthreads, (s.core i).events = ∅) ∧
      ∃ i < param.numHthreads, (s.core i).active = true))

instance (s : Cores) : DecidablePred (OnClock param s)
  | .core i (.addInstruction x) => inferInstanceAs (Decidable
      ((O3Core.o3Instr (cfg param i) x).Slow → param.processInterval ∣ param.sseT))
  | .core _ (.processEvent _) | .core _ (.setActive _) | .core _ (.answer ..) | .core _ (.migrate _)
  | .core _ (.advance _) => isTrue trivial
  | .tick _ => isTrue trivial
  | .resumeIdle => inferInstanceAs (Decidable (param.processInterval ∣ s.currTime))

def follow (param : O3CoreConfig) (ok : Cores → CoresEvent → Prop) [∀ s, DecidablePred (ok s)] :
    Cores → List CoresEvent → Option Cores
  | s, [] => some s
  | s, e :: es =>
    if Told param s e ∧ ok s e then
      match step param s e with
      | .ok s' => follow param ok s' es
      | .error _ => none
    else none

theorem Run.follow {ok : Cores → CoresEvent → Prop} [∀ s, DecidablePred (ok s)]
    {es : List CoresEvent} (h : Run param ok s) (hs : Cores.follow param ok s es = some s') :
      Run param ok s' := by
  induction es generalizing s with
  | nil =>
    cases hs
    exact h
  | cons e es ih =>
    unfold Cores.follow at hs
    split at hs
    · rename_i allowed
      split at hs
      · rename_i one
        exact ih (h.step e allowed.1 allowed.2 one) hs
      · cases hs
    · cases hs

theorem Run.last {ok : Cores → CoresEvent → Prop} [∀ s, DecidablePred (ok s)] (h : Run param ok s)
    (es : List CoresEvent) (ends : (Cores.follow param ok s es).isSome = true) :
    Run param ok ((Cores.follow param ok s es).getD s) := by
  obtain ⟨s', hs⟩ := Option.isSome_iff_exists.mp ends
  rw [hs]
  exact h.follow hs

/-- A load, an x87 instruction and a plain one are fetched, issued and completed; then the core asks
for more, and gets a branch. -/
theorem run_aligned_load : ∃ s, Run { sseT := 160 } (OnClock { sseT := 160 }) s ∧
    (s.core 0).committed.length = 3 ∧ (s.core 0).o3queue.size = 1 ∧ (s.core 0).events = {400} ∧
    s.reported = [400] ∧ (∀ t ∈ (s.core 0).events, 80 ∣ t) ∧ ∀ t ∈ s.reported, 80 ∣ t := by
  let param : O3CoreConfig := { sseT := 160 }
  let load : Pthread.PtsInstr := { hthreadid := 0, currTime := 0, ip := 64, raddr := 256 }
  let x87 : Pthread.PtsInstr := { hthreadid := 0, currTime := 0, ip := 68, category := 36 }
  let plain : Pthread.PtsInstr := { hthreadid := 0, currTime := 0, ip := 72 }
  let calls : List CoresEvent := [.core 0 (.addInstruction load), .core 0 (.addInstruction x87),
    .core 0 (.addInstruction plain), .core 0 (.processEvent 0), .core 0 (.answer 0 .tlbRd 1),
    .core 0 (.answer 0 .read 21), .core 0 (.processEvent 80),
    .core 0 (.processEvent 160), .tick 173,
    .core 0 (.answer 0 .read 173), .core 0 (.processEvent 240), .core 0 (.processEvent 320),
    .core 0 (.setActive true), .core 0 (.processEvent 400),
    .core 0 (.addInstruction { plain with currTime := 400, isbranch := true })]
  let s := (follow param (OnClock param) (init param) calls).getD (init param)
  have run : Run param (OnClock param) s := Run.init.last calls (by decide +kernel)
  have rounded : param.construct.Rounded :=
    O3CoreConfig.construct_rounded (by decide) (by decide) (by decide) (by decide)
  obtain ⟨events, reported⟩ := run_aligned rounded run
  have places : (s.core 0).committed.length = 3 ∧ (s.core 0).o3queue.size = 1 ∧
      (s.core 0).events = {400} ∧ s.reported = [400] := by decide +kernel
  exact ⟨s, run, places.1, places.2.1, places.2.2.1, places.2.2.2, events 0, reported⟩

/-- With the default parameters, an x87 instruction from its first tick to its completion -/
theorem x87_off_clock : ∃ s,
    Run { branchMissPenalty := 100, lockT := 100, unlockT := 100, barrierT := 100 }
      (fun _ _ => True) s ∧ 200 ∈ (s.core 0).events ∧ ¬ 80 ∣ 200 := by
  let param : O3CoreConfig :=
    { branchMissPenalty := 100, lockT := 100, unlockT := 100, barrierT := 100 }
  let x87 : Pthread.PtsInstr := { hthreadid := 0, currTime := 0, ip := 64, category := 36 }
  let calls : List CoresEvent := [.core 0 (.addInstruction x87), .core 0 (.processEvent 0),
    .core 0 (.answer 0 .read 1), .core 0 (.processEvent 80), .core 0 (.processEvent 160)]
  have run : Run param (fun _ _ => True)
      ((follow param (fun _ _ => True) (init param) calls).getD (init param)) :=
    Run.init.last calls (by decide +kernel)
  exact ⟨_, run, by decide +kernel, by decide⟩

end Cores
end McSim
