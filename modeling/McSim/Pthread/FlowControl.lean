import McSim.Pthread.Batching
import McSim.O3CoreRings

/-! Flow control between a frontend and the queue of a core.
The frontend asks for the number of free slots only when it sends a batch, so what it knows may be
old; the core takes instructions out of its queue at any time in between. -/

namespace McSim.Pthread

/-- Where a frontend meets its core: the number of its process and the first hthread of it, the
hthread in question, and how the addresses of processes are kept apart. -/
structure Link where
  pid : Nat := 0
  tidToHtid : Nat := 0
  hthread : Nat := 0
  addrOffsetLsb : Nat := 48
  interleaveBaseBit : Nat := 14

namespace Link

variable (link : Link)

def offset : Nat := (link.pid <<< link.addrOffsetLsb) + (link.pid <<< link.interleaveBaseBit)

def access (addr : Nat) : Nat := (addr + if addr = 0 then 0 else link.offset) % 2 ^ 64

/-- The instruction as the loop of `main` hands it on. -/
def instr (x : PtsInstr) : PtsInstr :=
  { x with
    hthreadid := link.tidToHtid + x.hthreadid, waddr := link.access x.waddr
    raddr := link.access x.raddr, raddr2 := link.access x.raddr2
    ip := (x.ip + link.offset) % 2 ^ 64 }

end Link

/-- `since` is ghost: the calls made after one told to resume the simulation, until the queue has
drained to half its capacity. -/
structure FlowSystem where
  pts : Pts
  core : O3Core
  since : Option Nat := none

/-- What happens to a frontend and its core. The reply is that to a message other than a batch. -/
inductive FlowEvent
  | addInstruction (x : PtsInstr) (canBePiled : Bool)
  | tell (op : Op) (reply : Reply)
  | core (e : CoreEvent)

def Pts.tell (s : Pts) : Op → Except Stop Pts
  | .resumeSimulation mustSwitch killed => do
    let r ← s.resumeSimulation mustSwitch killed
    return r.1
  | .addInstruction _ => .error .undefined
  | .setStackNSize hthread stack stacksize => s.setStackNSize hthread stack stacksize
  | .setActive hthread isActive => s.setActive hthread isActive
  | .getNumHthreads => do
    let r ← s.getNumHthreads
    return r.1
  | .getParamUint64 str defValue => do
    let r ← s.getParamUint64 str defValue
    return r.1
  | .getParamBool str defValue => do
    let r ← s.getParamBool str defValue
    return r.1
  | .getCurrTime => do
    let r ← s.getCurrTime
    return r.1

def Pts.piled (s : Pts) : List Op :=
  match s.message.batch s.numPiledInstr with
  | .ok xs => xs.map .addInstruction
  | .error _ => []

namespace FlowSystem

variable (cfg : O3CoreConfig) (link : Link)

/-- The core's share in an operation; the value is the number of slots left. -/
def perform (core : O3Core) : Op → O3Core × Nat
  | .addInstruction x => core.addInstruction cfg (link.instr x)
  | .setActive hthread isActive =>
    (if hthread = link.hthread then { core with active := isActive } else core, 0)
  | _ => (core, 0)

/-- A message is done in order, and the last operation is answered. -/
def deliver (core : O3Core) (ops : List Op) : O3Core × Nat :=
  ops.foldl (fun r op => perform cfg link r.1 op) (core, 0)

/-- The answers to the messages of a call, the first of which holds `first`. -/
def answers (s : FlowSystem) (first : List Op) (reply : Reply) : Nat → Reply
  | 0 => if first = [] then reply else { slots := (deliver cfg link s.core first).2 }
  | _ + 1 => reply

/-- The frontend gets to `pts`, and the core to what the simulator has then done. -/
def hand (s : FlowSystem) (pts : Pts) (since : Option Nat) : FlowSystem :=
  { pts, core := (deliver cfg link s.core (pts.performed.drop s.pts.performed.length)).1, since }

def count (s : FlowSystem) (resume : Bool) : Option Nat :=
  match s.since with
  | none => if resume then some 0 else none
  | some k => some (k + 1)

def drain (s : FlowSystem) : FlowSystem :=
  if s.core.o3queue.size ≤ cfg.o3queueMaxSize / 2 then { s with since := none } else s

def step (s : FlowSystem) : FlowEvent → Option FlowSystem
  | .addInstruction x canBePiled => do
    let pts := { s.pts with
      replies := s.answers cfg link (s.pts.piled ++ [Op.addInstruction x]) {} }
    let r ← (pts.addInstruction x canBePiled).toOption
    return drain cfg (s.hand cfg link r.1 (s.count r.2))
  | .tell op reply => do
    let pts := { s.pts with replies := s.answers cfg link s.pts.piled reply }
    let pts ← (pts.tell op).toOption
    return drain cfg (s.hand cfg link pts s.since)
  | .core e => do
    let core ← (O3Core.step cfg s.core e).toOption
    return drain cfg { s with core }

/-- The calls are for the one hthread, at most four of them while the queue is to drain, and no
instructions reach the core by another way. -/
def Allowed (s : FlowSystem) : FlowEvent → Prop
  | .addInstruction x _ => x.hthreadid = link.hthread ∧ ∀ k ∈ s.since, k < 4
  | .tell _ _ => True
  | .core (.addInstruction _) => False
  | .core _ => True

/-- The instruction that `main` itself gives to the first hthread of every process but the first. -/
def preloaded : List PtsInstr :=
  if 0 < link.pid ∧ link.hthread = 0 then [{ hthreadid := link.tidToHtid, currTime := 0 }] else []

def start (numHthreads : Nat) : FlowSystem :=
  { pts := { numHthreads, replies := fun _ => {} }
    core := (preloaded link).foldl
      (fun core x => { (core.addInstruction cfg x).1 with active := true }) (O3Core.init cfg) }

inductive Run (numHthreads : Nat) : FlowSystem → Prop
  | start : Run numHthreads (start cfg link numHthreads)
  | step {s s'} (e : FlowEvent) : Run numHthreads s → s.Allowed link e →
      s.step cfg link e = some s' → Run numHthreads s'

instance (s : FlowSystem) : DecidablePred (s.Allowed link)
  | .addInstruction x _ =>
    inferInstanceAs (Decidable (x.hthreadid = link.hthread ∧ ∀ k ∈ s.since, k < 4))
  | .tell _ _ => isTrue trivial
  | .core (.addInstruction _) => isFalse id
  | .core (.setActive _) => isTrue trivial
  | .core (.processEvent _) => isTrue trivial
  | .core (.answer _ _ _) => isTrue trivial
  | .core (.migrate _) => isTrue trivial
  | .core (.advance _) => isTrue trivial

def follow (s : FlowSystem) : List FlowEvent → Option FlowSystem
  | [] => some s
  | e :: es => if s.Allowed link e then (s.step cfg link e).bind fun s => follow s es else none

variable {cfg link} {core core' : O3Core} {s s' : FlowSystem}

structure Accepts (cfg : O3CoreConfig) (xs : List PtsInstr) (core core' : O3Core) : Prop where
  consistent : O3Core.Consistent cfg core'
  size : core'.o3queue.size = core.o3queue.size + xs.length
  accepted : core'.accepted = core.accepted ++ xs.map (O3Core.o3Instr cfg)
  numInstrs : core'.numInstrs = core.numInstrs + xs.length

structure Drains (core core' : O3Core) : Prop where
  size : core'.o3queue.size ≤ core.o3queue.size
  accepted : core'.accepted = core.accepted
  numInstrs : core'.numInstrs = core.numInstrs

theorem addInstruction_accepts (h : O3Core.Consistent cfg core) (x : PtsInstr)
    (room : core.o3queue.size < cfg.o3queueMaxSize) :
    Accepts cfg [x] core (core.addInstruction cfg x).1 ∧
      (core.addInstruction cfg x).2 = cfg.o3queueParam - (core.o3queue.size + 1) := by
  have consistent := O3Core.addInstruction_consistent h x
  have woken : (core.wakeUp x.currTime).o3queue = core.o3queue ∧
      (core.wakeUp x.currTime).accepted = core.accepted ∧
      (core.wakeUp x.currTime).numInstrs = core.numInstrs := by
    unfold O3Core.wakeUp
    split <;> exact ⟨rfl, rfl, rfl⟩
  obtain ⟨queue, accepted, num⟩ := woken
  have free : ¬ cfg.o3queueMaxSize ≤ (core.wakeUp x.currTime).o3queue.size := by
    rw [queue]
    exact not_le.mpr room
  refine ⟨⟨consistent, ?_, ?_, ?_⟩, ?_⟩ <;> unfold O3Core.addInstruction <;> dsimp only <;>
    rw [if_neg free]
  · show (core.wakeUp x.currTime).o3queue.size + 1 = _
    rw [queue]
    rfl
  · show (core.wakeUp x.currTime).accepted ++ _ = _
    rw [accepted]
    rfl
  · show (core.wakeUp x.currTime).numInstrs + 1 = _
    rw [num]
    rfl
  · show (if cfg.o3queueMaxSize < (core.wakeUp x.currTime).o3queue.size + 1 + 4 then 0
      else cfg.o3queueMaxSize - ((core.wakeUp x.currTime).o3queue.size + 1 + 4)) = _
    rw [queue]
    unfold O3CoreConfig.o3queueMaxSize
    split <;> omega

theorem Drains.refl (core : O3Core) : Drains core core := ⟨le_rfl, rfl, rfl⟩

theorem Drains.trans {core₁ core₂ core₃ : O3Core} (h : Drains core₁ core₂)
    (h' : Drains core₂ core₃) : Drains core₁ core₃ :=
  ⟨h'.size.trans h.size, h'.accepted.trans h.accepted, h'.numInstrs.trans h.numInstrs⟩

theorem Drains.of_same {core₁ core₂ core₃ : O3Core} (h : Drains core₁ core₂)
    (queue : core₃.o3queue.size = core₂.o3queue.size) (accepted : core₃.accepted = core₂.accepted)
    (num : core₃.numInstrs = core₂.numInstrs) : Drains core₁ core₃ :=
  h.trans ⟨queue.le, accepted, num⟩

theorem issueInstr_drains (t : Nat) (x : O3Instr) :
    Drains core (core.issueInstr cfg t x) := by
  have part : ∀ (d : O3Core.Deps) (st : O3Core × Option Nat) k, Drains core st.1 →
      Drains core (O3Core.issuePart cfg t x d st k).1 := by
    intro d st k h
    unfold O3Core.issuePart
    dsimp only
    split <;> exact h.of_same rfl rfl rfl
  have last : ∀ (d : O3Core.Deps) (st : O3Core × Option Nat), Drains core st.1 →
      Drains core (O3Core.issueNoMem cfg t x d st) := by
    intro d st h
    unfold O3Core.issueNoMem
    dsimp only
    split <;> exact h.of_same rfl rfl rfl
  have predicted : Drains core (core.predict cfg t x) := (Drains.refl core).of_same rfl rfl rfl
  have parts : ∀ d, Drains core (O3Core.issueNoMem cfg t x d ([0, 1, 2].foldl
      (O3Core.issuePart cfg t x d) (core.predict cfg t x, none))) :=
    fun d => last d _ (part d _ 2 (part d _ 1 (part d _ 0 predicted)))
  exact (parts (core.deps t x)).trans ⟨Nat.sub_le _ _, rfl, rfl⟩

theorem phases_drains (h : O3Core.Consistent cfg core) (t : Nat) :
    Drains core (core.phases cfg t) := by
  have fetched : O3Core.Fetched cfg core (core.fetch cfg t) :=
    (O3Core.fetch_fetched h.rings.queueSize).1
  have start : Drains core (core.fetch cfg t) := ⟨fetched.size.le,
    fetched.same O3Core.accepted fun _ _ _ => rfl, fetched.same O3Core.numInstrs fun _ _ _ => rfl⟩
  have retry : ∀ s, Drains core s → Drains core (O3Core.retry cfg t s) :=
    fun s hs => hs.of_same rfl rfl rfl
  have issued : Drains core ((core.fetch cfg t).issue cfg t) :=
    O3Core.issueLoop_keeps (fun s hs _ _ _ _ => hs.trans (issueInstr_drains t _)) _ start
  have executed : Drains core (((core.fetch cfg t).issue cfg t).execute cfg t) :=
    O3Core.execute_keeps retry (fun s i m r hs _ _ _ => hs.of_same rfl rfl rfl)
      (fun s i hs _ _ => by
        unfold O3Core.access
        dsimp only
        split <;> exact hs.of_same rfl rfl rfl) issued
  have consistent : O3Core.Consistent cfg (((core.fetch cfg t).issue cfg t).execute cfg t) :=
    O3Core.execute_consistent (O3Core.issue_consistent (fetched.consistent h))
  have woken : Drains core ((((core.fetch cfg t).issue cfg t).execute cfg t).wake cfg t) :=
    (O3Core.wake_keeps retry (fun s i j hs _ _ _ _ _ => hs.of_same rfl rfl rfl)
      consistent.rings.robSize.le executed).1
  exact O3Core.commit_keeps retry (fun s hs _ _ => hs.of_same rfl rfl rfl) woken

theorem dispatch_drains (h : O3Core.Consistent cfg core) (t : Nat) :
    Drains core (core.dispatch cfg t).1 := by
  have taken : O3Core.Consistent cfg (core.take t) := h.of_same rfl rfl rfl rfl rfl rfl
  have skipped : Drains core (O3Core.skip cfg t (core.take t)) := by
    unfold O3Core.skip
    split
    · exact ⟨Nat.zero_le _, rfl, rfl⟩
    · exact ⟨le_rfl, rfl, rfl⟩
  unfold O3Core.dispatch O3Core.processEvent
  dsimp only
  split
  · exact skipped.of_same rfl rfl rfl
  · exact skipped.trans (phases_drains (O3Core.skip_consistent taken) t)

theorem loaded_drains (aligned address : Nat) : Drains core (core.loaded cfg aligned address) := by
  have loop : ∀ (is : List Nat) (s : O3Core), Drains core s →
      Drains core (is.foldl (O3Core.loadOne cfg aligned address) s) := by
    intro is
    induction is with
    | nil => exact fun s h => h
    | cons i is ih =>
      refine fun s h => ih _ ?_
      unfold O3Core.loadOne
      dsimp only
      split
      · exact h.of_same rfl rfl rfl
      · exact h
  exact loop _ _ ((Drains.refl core).of_same rfl rfl rfl)

theorem answer_drains {n time : Nat} {type : EventType}
    (hs : O3Core.answer cfg core n type time = .ok core') : Drains core core' := by
  have taken : Drains core (core.answered n) := (Drains.refl core).of_same rfl rfl rfl
  obtain ⟨call, -, ⟨-, hs⟩ | ⟨-, hs⟩⟩ := O3Core.answer_cases hs
  · rcases O3Core.addReqEvent_cases hs with ⟨nacks, delay, rfl⟩ | rfl
    · exact taken.of_same rfl rfl rfl
    · exact taken.trans (loaded_drains _ _)
  · rcases O3Core.addRepEvent_cases hs with ⟨nacks, type, delay, rfl⟩ | ⟨r, -, rfl⟩
    · exact taken.of_same rfl rfl rfl
    · exact taken.of_same rfl rfl rfl

theorem step_drains (h : O3Core.Consistent cfg core) {e : CoreEvent}
    (he : ∀ x, e ≠ .addInstruction x) (hs : O3Core.step cfg core e = .ok core') :
    Drains core core' := by
  cases e with
  | addInstruction x => exact absurd rfl (he x)
  | processEvent t =>
    cases hs
    exact dispatch_drains h t
  | answer n type time => exact answer_drains hs
  | setActive isActive =>
    cases hs
    exact ⟨le_rfl, rfl, rfl⟩
  | migrate isMigrateReady =>
    cases hs
    exact ⟨le_rfl, rfl, rfl⟩
  | advance t =>
    cases hs
    exact ⟨le_rfl, rfl, rfl⟩

theorem Accepts.cons {core₁ core₂ core₃ : O3Core} {x : PtsInstr} {xs : List PtsInstr}
    (h : Accepts cfg [x] core₁ core₂) (h' : Accepts cfg xs core₂ core₃) :
    Accepts cfg (x :: xs) core₁ core₃ where
  consistent := h'.consistent
  size := by
    rw [h'.size, h.size]
    simp only [List.length_cons, List.length_nil]
    omega
  accepted := by
    rw [h'.accepted, h.accepted, List.append_assoc]
    rfl
  numInstrs := by
    rw [h'.numInstrs, h.numInstrs]
    simp only [List.length_cons, List.length_nil]
    omega

/-- A batch with no more instructions than free slots is taken as a whole, and what is left of the
slots but for the margin of four is answered. -/
theorem deliver_accepts (h : O3Core.Consistent cfg core) (xs : List PtsInstr) (n : Nat)
    (room : core.o3queue.size + xs.length ≤ cfg.o3queueMaxSize) :
    Accepts cfg (xs.map link.instr) core
        ((xs.map Op.addInstruction).foldl (fun r op => perform cfg link r.1 op) (core, n)).1 ∧
      (xs ≠ [] →
        ((xs.map Op.addInstruction).foldl (fun r op => perform cfg link r.1 op) (core, n)).2 =
          cfg.o3queueParam - (core.o3queue.size + xs.length)) := by
  induction xs generalizing core n with
  | nil => exact ⟨⟨h, rfl, (List.append_nil _).symm, rfl⟩, fun hne => absurd rfl hne⟩
  | cons x xs ih =>
    rw [List.length_cons] at room
    obtain ⟨one, slots⟩ := addInstruction_accepts h (link.instr x) (by omega)
    have size : (core.addInstruction cfg (link.instr x)).1.o3queue.size = core.o3queue.size + 1 :=
      one.size
    obtain ⟨rest, last⟩ := ih one.consistent (core.addInstruction cfg (link.instr x)).2
      (by rw [size]; omega)
    refine ⟨one.cons rest, fun _ => ?_⟩
    cases xs with
    | nil => exact slots
    | cons y ys =>
      refine (last (List.cons_ne_nil y ys)).trans ?_
      simp only [size, List.length_cons]
      omega

theorem perform_other (h : O3Core.Consistent cfg core) {op : Op}
    (other : ∀ x, op ≠ .addInstruction x) : Accepts cfg [] core (perform cfg link core op).1 := by
  cases op with
  | addInstruction x => exact absurd rfl (other x)
  | setActive hthread isActive =>
    unfold perform
    dsimp only
    split
    · exact ⟨h.of_same rfl rfl rfl rfl rfl rfl, rfl, (List.append_nil _).symm, rfl⟩
    · exact ⟨h, rfl, (List.append_nil _).symm, rfl⟩
  | _ => exact ⟨h, rfl, (List.append_nil _).symm, rfl⟩

end FlowSystem

namespace Pts

variable {s s' s₁ : Pts} {c : List Op} {k : Nat} {op : Op}

theorem Pile.content (h : s.Pile c k) : ∃ xs : List PtsInstr, s.piled = xs.map .addInstruction ∧
    xs.length = s.numPiledInstr ∧ s.performed ++ xs.map .addInstruction = c := by
  obtain ⟨xs, hxs, -, hc⟩ := h.held
  refine ⟨xs, ?_, PtsMessage.batch_length hxs, hc⟩
  unfold piled
  rw [hxs]

theorem Pile.content_eq (h : s.Pile c k) : c = s.performed ++ s.piled := by
  obtain ⟨xs, hxs, -, hc⟩ := h.content
  rw [hxs, hc]

theorem Pile.behind (h : s.Pile c k) : s.Pile (s.performed ++ s.piled) k := by
  rw [← h.content_eq]
  exact h

structure Sent (s : Pts) (op : Op) (k slots : Nat) (s' : Pts) : Prop where
  settled : s'.Settled (s.performed ++ s.piled ++ [op])
  slots : s'.numAvailableSlot k = slots

theorem sync_slots (hs : s.syncWithMcsim = .ok s') : s'.numAvailableSlot = s.numAvailableSlot := by
  unfold syncWithMcsim at hs
  cases ho : s.message.ops with
  | error e =>
    rw [ho] at hs
    cases hs
  | ok ops =>
    rw [ho] at hs
    cases hs
    rfl

theorem flush_slots (h : s.Pile c k) (hs : s.flush = .ok s') : s'.numAvailableSlot k =
    if s.numPiledInstr = 0 then s.numAvailableSlot k else (s.replies 0).slots := by
  unfold flush at hs
  by_cases hn : s.numPiledInstr = 0
  · rw [if_neg (not_not.mpr hn)] at hs
    cases hs
    exact (if_pos hn).symm
  · obtain ⟨typed, val⟩ := h.typed hn
    obtain ⟨xs, hxs, own, -⟩ := h.held
    obtain ⟨n, hsucc⟩ := Nat.exists_eq_succ_of_ne_zero hn
    obtain ⟨x, hx, mem⟩ := PtsMessage.batch_last (hsucc ▸ hxs)
    have sync := sync_ok (PtsMessage.ops_batch typed val hn hxs)
    have last : s.message.instr (s.numPiledInstr - 1) = some x := by
      rw [hsucc, Nat.succ_eq_add_one, Nat.add_sub_cancel, hx]
    rw [if_pos hn, sendInstrBatch, if_neg (not_not.mpr typed), sync] at hs
    simp only [bind, Except.bind, PtsMessage.answered_instr, last] at hs
    cases hs
    rw [if_neg hn]
    show Function.update s.numAvailableSlot x.hthreadid _ k = _
    rw [own x mem, Function.update_self, PtsMessage.answered, typed]

theorem told_sent (h : s.Pile c k) (op : Op) (fill : PtsMessage → PtsMessage)
    (hops : ∀ m, (fill m).ops = .ok [op]) :
    ∃ s₁ s', s.flush = .ok s₁ ∧
      { s₁ with message := fill s₁.message }.syncWithMcsim = .ok s' ∧
      Sent s op k
        (if s.numPiledInstr = 0 then s.numAvailableSlot k else (s.replies 0).slots) s' := by
  obtain ⟨s₁, s', flush, sync, settled⟩ := told h.behind op fill hops
  have slots := flush_slots h flush
  have known := sync_slots sync
  exact ⟨s₁, s', flush, sync, settled, by rw [known]; exact slots⟩

theorem tell_sent (h : s.Pile c k) (hs : s.tell op = .ok s') :
    (∀ x, op ≠ .addInstruction x) ∧ Sent s op k
      (if s.numPiledInstr = 0 then s.numAvailableSlot k else (s.replies 0).slots) s' := by
  cases op with
  | addInstruction x => cases hs
  | resumeSimulation mustSwitch killed =>
    obtain ⟨s₁, s₂, flush, sync, sent⟩ := told_sent h (.resumeSimulation mustSwitch killed)
      (fun m => { m with type := .resumeSimulation, boolVal := mustSwitch, killed }) fun _ => rfl
    simp only [tell, resumeSimulation, flush, bind, Except.bind, sync] at hs
    cases hs
    exact ⟨fun _ => Op.noConfusion, sent⟩
  | setStackNSize hthread stack stacksize =>
    obtain ⟨s₁, s₂, flush, sync, sent⟩ := told_sent h (.setStackNSize hthread stack stacksize)
      (fun m => { m with
        type := .setStackNSize, uint32Val := hthread, stackVal := stack
        stacksizeVal := stacksize }) fun _ => rfl
    simp only [tell, setStackNSize, flush, bind, Except.bind, sync] at hs
    cases hs
    exact ⟨fun _ => Op.noConfusion, sent⟩
  | setActive hthread isActive =>
    obtain ⟨s₁, s₂, flush, sync, sent⟩ := told_sent h (.setActive hthread isActive)
      (fun m => { m with type := .setActive, uint32Val := hthread, boolVal := isActive })
      fun _ => rfl
    simp only [tell, setActive, flush, bind, Except.bind, sync] at hs
    cases hs
    exact ⟨fun _ => Op.noConfusion, sent⟩
  | getNumHthreads =>
    obtain ⟨s₁, s₂, flush, sync, sent⟩ := told_sent h .getNumHthreads
      (fun m => { m with type := .getNumHthreads }) fun _ => rfl
    simp only [tell, getNumHthreads, flush, bind, Except.bind, sync] at hs
    cases hs
    exact ⟨fun _ => Op.noConfusion, sent⟩
  | getParamUint64 str defValue =>
    obtain ⟨s₁, s₂, flush, sync, sent⟩ := told_sent h (.getParamUint64 str defValue)
      (fun m => { m with type := .getParamUint64, uint64Val := defValue }.putStr str) fun _ => rfl
    simp only [tell, getParamUint64, flush, bind, Except.bind, sync] at hs
    cases hs
    exact ⟨fun _ => Op.noConfusion, sent⟩
  | getParamBool str defValue =>
    obtain ⟨s₁, s₂, flush, sync, sent⟩ := told_sent h (.getParamBool str defValue)
      (fun m => { m with type := .getParamBool, boolVal := defValue }.putStr str) fun _ => rfl
    simp only [tell, getParamBool, flush, bind, Except.bind, sync] at hs
    cases hs
    exact ⟨fun _ => Op.noConfusion, sent⟩
  | getCurrTime =>
    obtain ⟨s₁, s₂, flush, sync, sent⟩ := told_sent h .getCurrTime
      (fun m => { m with type := .getCurrTime }) fun _ => rfl
    simp only [tell, getCurrTime, flush, bind, Except.bind, sync] at hs
    cases hs
    exact ⟨fun _ => Op.noConfusion, sent⟩

/-- An instruction stays on top of the pile while there are slots for more, or takes the pile
along. -/
theorem addInstruction_cases (h : s.Pile c k) {x : PtsInstr} (hx : x.hthreadid = k)
    {canBePiled resume : Bool} (hs : s.addInstruction x canBePiled = .ok (s', resume)) :
    (s' = s.pile x ∧ resume = false ∧ s'.Pile (s'.performed ++ s'.piled) k ∧
        s.numPiledInstr + 1 < s.numAvailableSlot k) ∨
      (Sent s (.addInstruction x) k (s.replies 0).slots s' ∧
        resume = decide ((s.replies 0).slots ≤ 1)) := by
  obtain ⟨r, hr, piles, -⟩ := addInstruction_piles h hx canBePiled
  rw [hs] at hr
  cases hr
  have few : ¬ ¬ s.numPiledInstr < instrBatchSize := not_not.mpr h.few
  have own : s.mixed x = some false := mixed_own h hx
  simp only [addInstruction, if_neg few, own] at hs
  split at hs
  · obtain ⟨xs, hxs, -, hc⟩ := pile_batch h.behind x
    have ops : (s.pile x).message.ops = .ok (xs.map .addInstruction) :=
      PtsMessage.ops_batch rfl rfl (Nat.succ_ne_zero _) hxs
    simp only [sendPile, sync_ok ops, bind, Except.bind] at hs
    cases hs
    refine .inr ⟨⟨⟨rfl, hc⟩, ?_⟩, rfl⟩
    show Function.update s.numAvailableSlot x.hthreadid _ k = _
    rw [hx, Function.update_self]
    rfl
  · rename_i stays
    cases hs
    simp only [not_or, not_le] at stays
    exact .inl ⟨rfl, rfl, piles.behind, hx ▸ stays.2.2⟩

end Pts

namespace FlowSystem

variable {cfg : O3CoreConfig} {link : Link} {s s' : FlowSystem}

/-- The slots the frontend believes to be free, and it always sends one instruction. -/
def slots (link : Link) (s : FlowSystem) : Nat := s.pts.numAvailableSlot link.hthread

def instrs (ops : List Op) : List PtsInstr :=
  ops.filterMap fun
    | .addInstruction x => some x
    | _ => none

structure Undropped (cfg : O3CoreConfig) (link : Link) (s : FlowSystem) : Prop where
  accepted : s.core.accepted =
    (preloaded link ++ (instrs s.pts.performed).map link.instr).map (O3Core.o3Instr cfg)
  numInstrs : s.core.numInstrs = s.core.accepted.length

/-- There is room for the pile. While the queue is to drain, the margin of four is used up one by
one. -/
structure Flows (cfg : O3CoreConfig) (link : Link) (s : FlowSystem) : Prop where
  consistent : O3Core.Consistent cfg s.core
  pile : s.pts.Pile (s.pts.performed ++ s.pts.piled) link.hthread
  undropped : Undropped cfg link s
  few : s.pts.numPiledInstr < max (s.slots link) 1
  fresh : 2 ≤ s.slots link → s.core.o3queue.size + s.slots link ≤ cfg.o3queueParam
  calm : s.since = none → s.core.o3queue.size + max (s.slots link) 1 ≤ cfg.o3queueParam
  urgent : ∀ k ∈ s.since, k ≤ 4 ∧
    s.core.o3queue.size + s.pts.numPiledInstr ≤ cfg.o3queueParam + k

theorem instrs_append (xs ys : List Op) : instrs (xs ++ ys) = instrs xs ++ instrs ys :=
  List.filterMap_append

theorem instrs_map (xs : List PtsInstr) : instrs (xs.map .addInstruction) = xs := by
  unfold instrs
  rw [List.filterMap_map]
  exact List.filterMap_some

theorem Undropped.accepts (h : Undropped cfg link s) {xs : List PtsInstr} {ops : List Op}
    (ha : Accepts cfg (xs.map link.instr) s.core s'.core)
    (performed : s'.pts.performed = s.pts.performed ++ ops) (hops : instrs ops = xs) :
    Undropped cfg link s' where
  accepted := by
    rw [ha.accepted, h.accepted, performed, instrs_append, hops]
    simp
  numInstrs := by
    rw [ha.numInstrs, ha.accepted, h.numInstrs]
    simp

theorem Flows.sent (h : Flows cfg link s) {op : Op} {n : Nat} {replies : Nat → Reply} {pts : Pts}
    (hs : Pts.Sent { s.pts with replies } op link.hthread n pts) :
    ∃ xs : List PtsInstr, s.pts.piled = xs.map .addInstruction ∧ xs.length = s.pts.numPiledInstr ∧
      pts.performed = s.pts.performed ++ (xs.map .addInstruction ++ [op]) ∧
      pts.performed.drop s.pts.performed.length = xs.map .addInstruction ++ [op] := by
  obtain ⟨xs, hxs, length, -⟩ := h.pile.content
  have performed : pts.performed = s.pts.performed ++ (xs.map .addInstruction ++ [op]) := by
    rw [← hxs, ← List.append_assoc]
    exact hs.settled.done
  refine ⟨xs, hxs, length, performed, ?_⟩
  rw [performed, List.drop_left]

theorem Flows.drain (h : Flows cfg link s) (six : 6 ≤ cfg.o3queueParam) :
    Flows cfg link (s.drain cfg) := by
  unfold FlowSystem.drain
  split
  · rename_i half
    have fresh := h.fresh
    refine { h with
      undropped := ⟨h.undropped.accepted, h.undropped.numInstrs⟩
      calm := fun _ => ?_
      urgent := fun k hk => absurd hk (Option.not_mem_none k) }
    unfold O3CoreConfig.o3queueMaxSize at half
    show s.core.o3queue.size + max (s.slots link) 1 ≤ cfg.o3queueParam
    omega
  · exact h

theorem Flows.room (h : Flows cfg link s) : s.core.o3queue.size + s.pts.numPiledInstr ≤
    cfg.o3queueMaxSize ∧ ((∀ k ∈ s.since, k < 4) →
      s.core.o3queue.size + (s.pts.numPiledInstr + 1) ≤ cfg.o3queueMaxSize) := by
  have few := h.few
  unfold O3CoreConfig.o3queueMaxSize
  cases hsince : s.since with
  | none =>
    have calm := h.calm hsince
    exact ⟨by omega, fun _ => by omega⟩
  | some k =>
    have urgent := h.urgent k hsince
    exact ⟨by omega, fun allowed => by have := allowed k rfl; omega⟩

theorem Flows.core (h : Flows cfg link s) {e : CoreEvent} (he : ∀ x, e ≠ .addInstruction x)
    {core : O3Core} (hs : O3Core.step cfg s.core e = .ok core) :
      Flows cfg link { s with core } := by
  have drains := step_drains h.consistent he hs
  have size : core.o3queue.size ≤ s.core.o3queue.size := drains.size
  exact {
    consistent := O3Core.step_consistent h.consistent hs
    pile := h.pile
    undropped := ⟨drains.accepted.trans h.undropped.accepted, by
      rw [drains.numInstrs, drains.accepted]
      exact h.undropped.numInstrs⟩
    few := h.few
    fresh := fun two => (Nat.add_le_add_right size _).trans (h.fresh two)
    calm := fun calm => (Nat.add_le_add_right size _).trans (h.calm calm)
    urgent := fun k hk =>
      ⟨(h.urgent k hk).1, (Nat.add_le_add_right size _).trans (h.urgent k hk).2⟩ }

theorem Flows.piles (h : Flows cfg link s) {x : PtsInstr}
    (allowed : ∀ k ∈ s.since, k < 4) {replies : Nat → Reply} {pts : Pts}
    (same : pts = Pts.pile { s.pts with replies } x)
    (pile : pts.Pile (pts.performed ++ pts.piled) link.hthread)
    (more : s.pts.numPiledInstr + 1 < s.slots link) :
    Flows cfg link (s.hand cfg link pts (s.count false)) := by
  subst same
  have none : s.hand cfg link (Pts.pile { s.pts with replies } x) (s.count false) =
      { s with pts := Pts.pile { s.pts with replies } x, since := s.count false } := by
    unfold hand
    have new : (Pts.pile { s.pts with replies } x).performed.drop s.pts.performed.length = [] :=
      List.drop_length
    rw [new]
    rfl
  rw [none]
  have fresh := h.fresh (by omega)
  refine ⟨h.consistent, pile, ⟨h.undropped.accepted, h.undropped.numInstrs⟩, ?_, h.fresh, ?_, ?_⟩
  · exact more.trans_le (Nat.le_max_left _ _)
  · intro _
    show s.core.o3queue.size + max (s.slots link) 1 ≤ cfg.o3queueParam
    omega
  · intro k hk
    show k ≤ 4 ∧ s.core.o3queue.size + (s.pts.numPiledInstr + 1) ≤ cfg.o3queueParam + k
    unfold count at hk
    cases hsince : s.since with
    | none =>
      rw [hsince] at hk
      cases hk
    | some j =>
      rw [hsince] at hk allowed
      cases hk
      have := allowed j rfl
      omega

theorem Flows.settled (consistent : O3Core.Consistent cfg s.core)
    {c : List Op} (settled : s.pts.Settled c) (undropped : Undropped cfg link s)
    (fresh : 2 ≤ s.slots link → s.core.o3queue.size + s.slots link ≤ cfg.o3queueParam)
    (calm : s.since = none → s.core.o3queue.size + max (s.slots link) 1 ≤ cfg.o3queueParam)
    (urgent : ∀ k ∈ s.since, k ≤ 4 ∧ s.core.o3queue.size ≤ cfg.o3queueParam + k) :
    Flows cfg link s where
  consistent := consistent
  pile := (settled.pile _).behind
  undropped := undropped
  few := by
    rw [settled.empty]
    exact lt_max_of_lt_right Nat.one_pos
  fresh := fresh
  calm := calm
  urgent k hk := by
    rw [settled.empty]
    exact urgent k hk

theorem Flows.batch (h : Flows cfg link s) {x : PtsInstr} (allowed : ∀ k ∈ s.since, k < 4)
    {replies : Nat → Reply} {pts : Pts} {n : Nat}
    (hn : n = (deliver cfg link s.core (s.pts.piled ++ [.addInstruction x])).2)
    (sent : Pts.Sent { s.pts with replies } (.addInstruction x) link.hthread n pts) :
    Flows cfg link (s.hand cfg link pts (s.count (decide (n ≤ 1)))) := by
  obtain ⟨xs, hxs, length, performed, new⟩ := h.sent sent
  have ops : xs.map Op.addInstruction ++ [.addInstruction x] = (xs ++ [x]).map .addInstruction := by
    rw [List.map_append]
    rfl
  have long : (xs ++ [x]).length = s.pts.numPiledInstr + 1 := by
    rw [List.length_append, length]
    rfl
  have room := h.room.2 allowed
  have delivered : Accepts cfg ((xs ++ [x]).map link.instr) s.core
      (deliver cfg link s.core ((xs ++ [x]).map .addInstruction)).1 ∧ _ :=
    deliver_accepts h.consistent (xs ++ [x]) 0 (by rw [long]; exact room)
  obtain ⟨accepts, left⟩ := delivered
  rw [hxs, ops] at hn
  rw [ops] at performed new
  have free : n = cfg.o3queueParam - (s.core.o3queue.size + (s.pts.numPiledInstr + 1)) := by
    rw [hn, ← long]
    exact left (List.append_ne_nil_of_right_ne_nil xs (List.cons_ne_nil x []))
  have core : (s.hand cfg link pts (s.count (decide (n ≤ 1)))).core =
      (deliver cfg link s.core ((xs ++ [x]).map .addInstruction)).1 := by
    unfold hand
    rw [new]
  have size : (s.hand cfg link pts (s.count (decide (n ≤ 1)))).core.o3queue.size =
      s.core.o3queue.size + (s.pts.numPiledInstr + 1) := by
    rw [core, accepts.size, List.length_map, long]
  have slots : (s.hand cfg link pts (s.count (decide (n ≤ 1)))).slots link = n := sent.slots
  have few := h.few
  refine Flows.settled ?_ sent.settled ?_ ?_ ?_ ?_
  · rw [core]
    exact accepts.consistent
  · exact h.undropped.accepts (core.symm ▸ accepts) performed (instrs_map _)
  · rw [size, slots]
    omega
  · intro hsince
    rw [size, slots]
    change s.count (decide (n ≤ 1)) = none at hsince
    unfold count at hsince
    split at hsince
    · rename_i calm
      have calm := h.calm calm
      split at hsince
      · cases hsince
      · rename_i enough
        rw [decide_eq_true_eq] at enough
        omega
    · cases hsince
  · intro k hk
    rw [size]
    change k ∈ s.count (decide (n ≤ 1)) at hk
    unfold count at hk
    split at hk
    · rename_i calm
      have calm := h.calm calm
      split at hk
      · cases hk
        omega
      · cases hk
    · rename_i j hsince
      have urgent := h.urgent j hsince
      have := allowed j hsince
      cases hk
      omega

theorem Flows.told (h : Flows cfg link s) {op : Op} (other : ∀ x, op ≠ .addInstruction x)
    {replies : Nat → Reply} {pts : Pts} {n : Nat}
    (hn : n = if s.pts.numPiledInstr = 0 then s.slots link
      else (deliver cfg link s.core s.pts.piled).2)
    (sent : Pts.Sent { s.pts with replies } op link.hthread n pts) :
    Flows cfg link (s.hand cfg link pts s.since) := by
  obtain ⟨xs, hxs, length, performed, new⟩ := h.sent sent
  have room := h.room.1
  have delivered : Accepts cfg (xs.map link.instr) s.core
      (deliver cfg link s.core (xs.map .addInstruction)).1 ∧ _ :=
    deliver_accepts h.consistent xs 0 (by rw [length]; exact room)
  obtain ⟨accepts, left⟩ := delivered
  rw [hxs] at hn
  have done : (s.hand cfg link pts s.since).core =
      (perform cfg link (deliver cfg link s.core (xs.map .addInstruction)).1 op).1 := by
    unfold hand deliver
    rw [new, List.foldl_append]
    rfl
  have last : Accepts cfg [] (deliver cfg link s.core (xs.map .addInstruction)).1
      (s.hand cfg link pts s.since).core := by
    rw [done]
    exact perform_other accepts.consistent other
  have all : Accepts cfg (xs.map link.instr) s.core (s.hand cfg link pts s.since).core := {
    consistent := last.consistent
    size := last.size.trans accepts.size
    accepted := last.accepted.trans ((List.append_nil _).trans accepts.accepted)
    numInstrs := last.numInstrs.trans accepts.numInstrs }
  have size : (s.hand cfg link pts s.since).core.o3queue.size =
      s.core.o3queue.size + s.pts.numPiledInstr := by
    rw [all.size, List.length_map, length]
  have slots : (s.hand cfg link pts s.since).slots link = n := sent.slots
  have free : s.pts.numPiledInstr = 0 ∧ n = s.slots link ∨
      n = cfg.o3queueParam - (s.core.o3queue.size + s.pts.numPiledInstr) := by
    by_cases none : s.pts.numPiledInstr = 0
    · exact .inl ⟨none, hn.trans (if_pos none)⟩
    · rw [if_neg none] at hn
      refine .inr (hn.trans ?_)
      rw [← length]
      exact left fun nil => none (by rw [← length, nil]; rfl)
  have few := h.few
  have fresh := h.fresh
  have alone : instrs [op] = [] := by
    cases op with
    | addInstruction x => exact absurd rfl (other x)
    | _ => rfl
  refine Flows.settled last.consistent sent.settled ?_ ?_ ?_ ?_
  · exact h.undropped.accepts all performed
      (by rw [instrs_append, instrs_map, alone, List.append_nil])
  · rw [size, slots]
    omega
  · intro hsince
    have calm := h.calm hsince
    rw [size, slots]
    omega
  · intro k hk
    rw [size]
    exact h.urgent k hk

theorem Flows.step (h : Flows cfg link s) (six : 6 ≤ cfg.o3queueParam) {e : FlowEvent}
    (allowed : s.Allowed link e) (hs : s.step cfg link e = some s') : Flows cfg link s' := by
  cases e with
  | addInstruction x canBePiled =>
    obtain ⟨own, margin⟩ := allowed
    simp only [FlowSystem.step] at hs
    cases hr : Pts.addInstruction { s.pts with
        replies := s.answers cfg link (s.pts.piled ++ [Op.addInstruction x]) {} } x canBePiled with
    | error e =>
      rw [hr] at hs
      cases hs
    | ok r =>
      obtain ⟨pts, resume⟩ := r
      rw [hr] at hs
      cases hs
      have pile : Pts.Pile { s.pts with
          replies := s.answers cfg link (s.pts.piled ++ [Op.addInstruction x]) {} }
          (s.pts.performed ++ s.pts.piled) link.hthread := ⟨h.pile.few, h.pile.typed, h.pile.held⟩
      rcases Pts.addInstruction_cases pile own hr with ⟨same, rfl, piled, more⟩ | ⟨sent, rfl⟩
      · exact (h.piles margin same piled more).drain six
      · refine (h.batch margin ?_ sent).drain six
        exact congrArg Reply.slots
          (if_neg (List.append_ne_nil_of_right_ne_nil _ (List.cons_ne_nil _ _)))
  | tell op reply =>
    simp only [FlowSystem.step] at hs
    cases hr : Pts.tell { s.pts with replies := s.answers cfg link s.pts.piled reply } op with
    | error e =>
      rw [hr] at hs
      cases hs
    | ok pts =>
      rw [hr] at hs
      cases hs
      have pile : Pts.Pile { s.pts with replies := s.answers cfg link s.pts.piled reply }
          (s.pts.performed ++ s.pts.piled) link.hthread := ⟨h.pile.few, h.pile.typed, h.pile.held⟩
      obtain ⟨other, sent⟩ := Pts.tell_sent pile hr
      refine (h.told other ?_ sent).drain six
      split
      · rfl
      · rename_i some
        obtain ⟨xs, hxs, length, -⟩ := h.pile.content
        have piled : s.pts.piled ≠ [] := by
          rw [hxs]
          intro nil
          exact some (length ▸ List.length_eq_zero_iff.mpr (List.map_eq_nil_iff.mp nil))
        exact congrArg Reply.slots (if_neg piled)
  | core e =>
    simp only [FlowSystem.step] at hs
    cases hr : O3Core.step cfg s.core e with
    | error e =>
      rw [hr] at hs
      cases hs
    | ok core =>
      rw [hr] at hs
      cases hs
      refine (h.core ?_ hr).drain six
      rintro x rfl
      exact allowed

theorem start_flows (six : 6 ≤ cfg.o3queueParam) (numHthreads : Nat) :
    Flows cfg link (start cfg link numHthreads) := by
  have settled : (start cfg link numHthreads).pts.Settled [] := ⟨rfl, rfl⟩
  have accepts : Accepts cfg (preloaded link) (O3Core.init cfg)
      (start cfg link numHthreads).core ∧ (preloaded link).length ≤ 1 := by
    unfold start preloaded
    have initial := O3Core.init_consistent cfg
    split
    · obtain ⟨one, -⟩ := addInstruction_accepts initial
        { hthreadid := link.tidToHtid, currTime := 0 } (Nat.succ_pos _)
      refine ⟨⟨one.consistent.of_same rfl rfl rfl rfl rfl rfl, one.size, one.accepted,
        one.numInstrs⟩, le_rfl⟩
    · exact ⟨⟨initial, rfl, rfl, rfl⟩, Nat.zero_le _⟩
  obtain ⟨accepts, few⟩ := accepts
  have size : (start cfg link numHthreads).core.o3queue.size = (preloaded link).length :=
    accepts.size.trans (Nat.zero_add _)
  have slots : (start cfg link numHthreads).slots link = 1 := rfl
  refine Flows.settled accepts.consistent settled ⟨?_, ?_⟩ ?_ ?_ ?_
  · rw [accepts.accepted]
    show _ = (preloaded link ++ []).map _
    rw [List.append_nil]
    rfl
  · rw [accepts.numInstrs, accepts.accepted, List.length_append, List.length_map]
    rfl
  · rw [slots]
    omega
  · rw [size, slots]
    omega
  · intro k hk
    exact absurd hk (Option.not_mem_none k)

theorem run_flows (six : 6 ≤ cfg.o3queueParam) {numHthreads : Nat}
    (h : Run cfg link numHthreads s) : Flows cfg link s := by
  induction h with
  | start => exact start_flows six numHthreads
  | step e _ allowed hs ih => exact ih.step six allowed hs

/-- The queue never overflows, and everything that the frontend has sent is accepted: the
instructions that the core counts are those in `accepted`. -/
theorem run_accepts (six : 6 ≤ cfg.o3queueParam) {numHthreads : Nat}
    (h : Run cfg link numHthreads s) :
    s.core.o3queue.size ≤ cfg.o3queueMaxSize ∧ Undropped cfg link s := by
  have flows := run_flows six h
  have rings := flows.consistent.rings
  exact ⟨rings.queueCap ▸ rings.queueSize, flows.undropped⟩

theorem Run.last {numHthreads : Nat} (h : Run cfg link numHthreads s) (es : List FlowEvent)
    (ends : (follow cfg link s es).isSome = true) :
    Run cfg link numHthreads ((follow cfg link s es).getD s) := by
  induction es generalizing s with
  | nil => exact h
  | cons e es ih =>
    unfold follow at ends ⊢
    split at ends
    · rename_i allowed
      rw [if_pos allowed]
      cases hs : s.step cfg link e with
      | none =>
        rw [hs] at ends
        cases ends
      | some s₁ =>
        rw [hs] at ends
        have run := ih (h.step e allowed hs) ends
        obtain ⟨s₂, hs₂⟩ := Option.isSome_iff_exists.mp ends
        change follow cfg link s₁ es = some s₂ at hs₂
        rw [hs₂] at run
        show Run cfg link numHthreads ((follow cfg link s₁ es).getD s)
        rw [hs₂]
        exact run
    · cases ends

/-- With the smallest parameter, the margin of four is used up to the last slot. -/
theorem run_accepts_full : ∃ s, Run { o3queueParam := 6 } {} 1 s ∧ s.core.o3queue.size = 10 ∧
    s.since = some 4 ∧ s.core.o3queue.size ≤ 10 ∧ Undropped { o3queueParam := 6 } {} s := by
  let x : FlowEvent := .addInstruction { hthreadid := 0, currTime := 0 } true
  let calls : List FlowEvent := [x, x, x, x, x, x, x, x, x, x]
  let s := (follow { o3queueParam := 6 } {} (start { o3queueParam := 6 } {} 1) calls).getD
    (start { o3queueParam := 6 } {} 1)
  have run : Run { o3queueParam := 6 } {} 1 s := Run.start.last calls (by decide +kernel)
  obtain ⟨size, undropped⟩ := run_accepts (by decide) run
  exact ⟨s, run, by decide +kernel, by decide +kernel, size, undropped⟩

end FlowSystem
end McSim.Pthread
