import McSim.CacheL1
import McSim.CacheL2
import McSim.Crossbar
import McSim.Directory
import McSim.GlobalEventQueue
import McSim.MemoryController

/-! The machine below the cores: caches, directories, memory controllers and the crossbar, run by
the global event queue. The cores are outside. They send reads and writes to first-level caches at
any time that is not past, and take every answer. -/

namespace McSim

variable {C : Type}

inductive Part (C : Type)
  | core
  | cachel1 (cfg : L1Config C) (numWays : Nat)
  | cachel2 (cfg : L2Config C) (numWays : Nat)
  | directory (cfg : DirConfig C)
  | crossbar (cfg : CrossbarConfig C)
  | memoryController (cfg : McConfig C)

namespace Part

def type : Part C → ComponentType
  | core => .o3core
  | cachel1 cfg _ => if cfg.isData then .cachel1d else .cachel1i
  | cachel2 .. => .cachel2
  | directory _ => .directory
  | crossbar _ => .crossbar
  | memoryController _ => .memoryController

def isCore : Part C → Bool
  | core => true
  | _ => false

def isL1 : Part C → Bool
  | cachel1 .. => true
  | _ => false

def isCache : Part C → Bool
  | cachel1 .. | cachel2 .. => true
  | _ => false

def isMc : Part C → Bool
  | memoryController _ => true
  | _ => false

def State : Part C → Type
  | core => Unit
  | cachel1 .. => CacheL1 C
  | cachel2 .. => CacheL2 C
  | directory _ => Directory C
  | crossbar _ => Crossbar C
  | memoryController _ => MemoryController C

def init : (p : Part C) → p.State
  | core => ()
  | cachel1 cfg numWays => CacheL1.init cfg numWays
  | cachel2 _ numWays => CacheL2.init numWays
  | directory _ => ({} : Directory C)
  | crossbar _ => ({} : Crossbar C)
  | memoryController _ => ({} : MemoryController C)

/-- A component after a call of one of its functions, the calls it made on its neighbours, and the
ticks it asked the global queue for. -/
structure Result (p : Part C) where
  state : p.State
  calls : List (Call C) := []
  ticks : List Nat := []

def priority : CallKind → NocPriority
  | .req => .req
  | .crq => .crq
  | .rep => .rep

/-- `add_req_event`, `add_crq_event` or `add_rep_event`. Requests have no multi-flit form, and only
the crossbar takes a `crq`. -/
def add (source : C) (call : Call C) : (p : Part C) → p.State → Except Abort p.Result
  | core, s => return { state := s }
  | cachel1 _ _, s =>
    match call.kind with
    | .req => return { state := CacheL1.addReqEvent s call.time call.lqe, ticks := [call.time] }
    | .rep => return { state := CacheL1.addRepEvent s call.time call.lqe, ticks := [call.time] }
    | .crq => .error .undefined
  | cachel2 cfg _, s =>
    let ticks := [ceilByY call.time cfg.processInterval]
    match call.kind with
    | .req => return { state := CacheL2.addReqEvent cfg s call.time call.lqe, ticks }
    | .rep => return { state := CacheL2.addRepEvent cfg s call.time call.lqe, ticks }
    | .crq => .error .undefined
  | directory cfg, s =>
    let ticks := [ceilByY call.time cfg.processInterval]
    match call.kind with
    | .req => return { state := Directory.addReqEvent cfg s call.time call.lqe, ticks }
    | .rep => return { state := Directory.addRepEvent cfg s call.time call.lqe, ticks }
    | .crq => .error .undefined
  | crossbar cfg, s =>
    let state := match call.kind, call.flits with
      | .req, _ | _, none => Crossbar.addEvent cfg (priority call.kind) s call.time call.lqe source
      | _, some n => Crossbar.addFlits cfg (priority call.kind) s call.time call.lqe n source
    return { state, ticks := [Crossbar.align cfg call.time] }
  | memoryController cfg, s =>
    match call.kind with
    | .req | .rep =>
      let (state, effects) := MemoryController.addReqEvent cfg s call.time call.lqe
      return { state, calls := effects.calls, ticks := effects.wakeups }
    | .crq => .error .undefined

def delivered (d : Crossbar.Delivery C) : Call C :=
  { callee := d.dest, kind := if d.isReq then .req else .rep, time := d.time, lqe := d.lqe }

section Process
variable [LinearOrder C]

def process (t : Nat) : (p : Part C) → p.State → Except Abort p.Result
  | core, s => return { state := s }
  | cachel1 cfg _, s => do
    let (state, effects, wakeup) ← CacheL1.processEvent cfg t s
    return { state, calls := effects.calls, ticks := wakeup.toList }
  | cachel2 cfg _, s => do
    let (state, effects, wakeup) ← CacheL2.processEvent cfg t s
    return { state, calls := effects.calls, ticks := wakeup.toList }
  | directory cfg, s => do
    let (state, effects) ← Directory.processEvent cfg t s
    return { state, calls := effects.calls, ticks := effects.wakeups }
  | crossbar cfg, s => do
    let r ← Crossbar.processEvent cfg s t
    return {
      state := r.xbar
      calls := (r.served.filterMap (Crossbar.Flit.delivery cfg t)).map delivered
      ticks := r.wakeup.toList }
  | memoryController cfg, s => do
    let (state, effects) ← MemoryController.processEvent cfg t s
    return { state, calls := effects.calls, ticks := effects.wakeups }

end Process
end Part

def CacheL1.upgrades (cfg : L1Config C) (t : Nat) : CacheL1 C → List (Lqe C) → List (Option Nat)
  | _, [] => []
  | s, lqe :: rest =>
    match processRequest cfg t s lqe with
    | .error _ => []
    | .ok (s', _) =>
      (if s'.stats.numUpgradeReq = s.stats.numUpgradeReq then [] else [lqe.serial]) ++
        upgrades cfg t s' rest

def CacheL2.upgrades [LinearOrder C] (cfg : L2Config C) (t : Nat) :
    CacheL2 C → List (Lqe C) → List (Option Nat)
  | _, [] => []
  | s, lqe :: rest =>
    match processRequest cfg t s lqe with
    | .error _ => []
    | .ok (s', _) =>
      (if s'.stats.numUpgradeReq = s.stats.numUpgradeReq then [] else [lqe.serial]) ++
        upgrades cfg t s' rest

/-- The requests that a call of `process_event` counts as upgrades -/
def Part.upgrades [LinearOrder C] (t : Nat) : (p : Part C) → p.State → List (Option Nat)
  | .cachel1 cfg _, s =>
    let s := CacheL1.takeEvents cfg t s
    match s.repQ with
    | [] => CacheL1.upgrades cfg t { s with reqQs := fun bank => (s.reqQs bank).tail }
        (CacheL1.frontRequests cfg s)
    | _ => []
  | .cachel2 cfg _, s =>
    let s := CacheL2.takeEvents cfg t s
    match s.repQ with
    | [] => CacheL2.upgrades cfg t { s with reqQs := fun bank => (s.reqQs bank).tail }
        (CacheL2.frontRequests cfg s)
    | _ => []
  | _, _ => []

/-- The components of a machine, wired to one another. `mcs` lists the memory controllers. -/
structure Machine (C : Type) where
  part : C → Part C
  mcs : List C
  mem_mcs : ∀ c ∈ mcs, (part c).isMc
  cachel1_wired : ∀ c cfg n, part c = .cachel1 cfg n → cfg.self = c
  cachel2_wired : ∀ c cfg n, part c = .cachel2 cfg n → cfg.self = c
  directory_wired : ∀ c cfg, part c = .directory cfg →
    cfg.self = c ∧ (part cfg.memoryController).isMc ∧ ∃ xbar, part cfg.crossbar = .crossbar xbar
  memoryController_wired : ∀ c cfg, part c = .memoryController cfg →
    ∃ dir, part cfg.directory = .directory dir

/-- `upgrades` is ghost: the serial numbers of the requests that each cache has counted as
upgrades. -/
structure System (m : Machine C) where
  state : (c : C) → (m.part c).State
  queue : GlobalEventQueue C := {}
  issued : Nat := 0
  upgrades : C → Finset (Option Nat) := fun _ => ∅

namespace System
variable [LinearOrder C] {m : Machine C}

/-- A controller that refreshes asks for its first tick when it is made. -/
def refreshTicks (m : Machine C) : List (Nat × C) :=
  m.mcs.filterMap fun c =>
    match m.part c with
    | .memoryController cfg =>
      if cfg.refreshInterval = 0 then none else some (cfg.refreshInterval, c)
    | _ => none

def init (m : Machine C) : System m where
  state c := (m.part c).init
  queue := GlobalEventQueue.addEvents {} (refreshTicks m)

/-- The components while one of them runs, and the calls of `add_event` so far -/
structure Midway (m : Machine C) where
  state : (c : C) → (m.part c).State
  added : List (Nat × C) := []

/-- A call on a neighbour, and what the neighbour calls in turn -/
def place (source : C) (s : Midway m) (call : Call C) :
    Except Abort (Midway m × List (Call C)) := do
  let r ← (m.part call.callee).add source call (s.state call.callee)
  return ({ state := Function.update s.state call.callee r.state
            added := s.added ++ r.ticks.map fun t => (t, call.callee) }, r.calls)

def placeAll (source : C) : Midway m → List (Call C) → Except Abort (Midway m)
  | s, [] => return s
  | s, call :: calls => do
    let (s, _) ← place source s call
    placeAll source s calls

/-- A memory controller may answer at once. Its directory makes no calls when it is answered. -/
def post (source : C) : Midway m → List (Call C) → Except Abort (Midway m)
  | s, [] => return s
  | s, call :: calls => do
    let (s, answers) ← place source s call
    let s ← placeAll call.callee s answers
    post source s calls

/-- A core sends a request, which gets a serial number of its own. -/
def request (cache : C) (t : Nat) (lqe : Lqe C) (s : System m) : Except Abort (System m) := do
  let lqe := { lqe with serial := some s.issued }
  let s' ← post cache { state := s.state } [{ callee := cache, kind := .req, time := t, lqe }]
  return { s with state := s'.state, queue := s.queue.addEvents s'.added, issued := s.issued + 1 }

def next (s : System m) : Option (Nat × C) :=
  s.queue.eventQueue.head?.bind fun e => (first e.2).map fun c => (e.1, c)

/-- One pass of the loop of `GlobalEventQueue::process_event` -/
def dispatch (t : Nat) (c : C) (s : System m) : Except Abort (System m) := do
  let r ← (m.part c).process t (s.state c)
  let s' ← post c { state := Function.update s.state c r.state } r.calls
  match s.queue.dispatch (fun c => (m.part c).type) (s'.added ++ r.ticks.map fun t => (t, c)) with
  | .ok (some (_, _, queue)) =>
    let found := ((m.part c).upgrades t (s.state c)).toFinset
    return { s with
      state := s'.state, queue, upgrades := Function.update s.upgrades c (s.upgrades c ∪ found) }
  | .ok none => .error .fatal
  | .error a => .error a

inductive Run (m : Machine C) (ok : Nat → C → System m → Prop) : System m → Prop
  | init : Run m ok (init m)
  | request {s s' : System m} {core cache : C} {t : Nat} {lqe : Lqe C} : Run m ok s →
      m.part core = .core → (m.part cache).isL1 → s.queue.currTime ≤ t → lqe.path = [core] →
      lqe.type = .read ∨ lqe.type = .write → s.request cache t lqe = .ok s' → Run m ok s'
  | dispatch {s s' : System m} {c : C} {t : Nat} : Run m ok s → s.next = some (t, c) → ok t c s →
      s.dispatch t c = .ok s' → Run m ok s'

end System

structure Counts where
  numRdAccess : Nat := 0
  numWrAccess : Nat := 0
  numRdMiss : Nat := 0
  numWrMiss : Nat := 0
  numNack : Nat := 0

namespace Counts

def accesses (k : Counts) : Nat := k.numRdAccess + k.numWrAccess

def misses (k : Counts) : Nat := k.numRdMiss + k.numWrMiss

end Counts

def L1Stats.counts (st : L1Stats) : Counts where
  numRdAccess := st.numRdAccess
  numWrAccess := st.numWrAccess
  numRdMiss := st.numRdMiss
  numWrMiss := st.numWrMiss
  numNack := st.numNack

def L2Stats.counts (st : L2Stats) : Counts where
  numRdAccess := st.numRdAccess
  numWrAccess := st.numWrAccess
  numRdMiss := st.numRdMiss
  numWrMiss := st.numWrMiss
  numNack := st.numNack

def Part.counts : (p : Part C) → p.State → Counts
  | .cachel1 .., (s : CacheL1 C) => s.stats.counts
  | .cachel2 .., (s : CacheL2 C) => s.stats.counts
  | _, _ => {}

end McSim
