import McSim.Component
import McSim.Lib.RingBuffer
import McSim.Pthread.Pts
import Mathlib.Data.Finset.Insert

/-! The out-of-order core.
Instructions wait in a ring `o3queue` until their line is fetched, and then in a ring `o3rob` as one
entry per memory access. A dependency is the number of a slot of `o3rob`. Around the core stand the
ticks at which the global queue holds it and the requests that the caches and TLBs have not
answered; sizes and times are natural numbers. -/

namespace McSim

open Pthread (PtsInstr)

inductive InsType
  | memRd | mem2ndRd | memWr | noMem | insBranchTaken | insBranchNotTaken | insLock | insUnlock
  | insBarrier | insX87 | insNotify | insWaitfor | insInvalid
deriving DecidableEq, Repr

inductive O3InstrQueueState
  | notInQueue | beingLoaded | ready | invalid
deriving DecidableEq, Repr

inductive O3InstrRobState
  | issued | executing | completed | invalid
deriving DecidableEq, Repr

/-- The part of an `O3Queue` entry that never changes. -/
structure O3Instr where
  waddr : Nat := 0
  wlen : Nat := 0
  raddr : Nat := 0
  raddr2 : Nat := 0
  rlen : Nat := 0
  ip : Nat := 0
  type : InsType := .insInvalid
  rr0 : Nat := 0
  rr1 : Nat := 0
  rr2 : Nat := 0
  rr3 : Nat := 0
  rw0 : Nat := 0
  rw1 : Nat := 0
  rw2 : Nat := 0
  rw3 : Nat := 0
deriving DecidableEq, Repr

structure O3Queue where
  state : O3InstrQueueState := .invalid
  readyTime : Nat := 0
  instr : O3Instr := {}
deriving DecidableEq, Repr

/-- `O3ROB`, where `none` is the dependency -1. Ghost: the instruction, its number among those that
entered, and which of its accesses (3 for none) the entry is. -/
structure O3Rob where
  state : O3InstrRobState := .invalid
  readyTime : Nat := 0
  ip : Nat := 0
  memaddr : Nat := 0
  isread : Bool := false
  branchMiss : Bool := false
  memDep : Option Nat := none
  instrDep : Option Nat := none
  branchDep : Option Nat := none
  type : InsType := .insInvalid
  rr0 : Option Nat := none
  rr1 : Option Nat := none
  rr2 : Option Nat := none
  rr3 : Option Nat := none
  rw0 : Nat := 0
  rw1 : Nat := 0
  rw2 : Nat := 0
  rw3 : Nat := 0
  instr : O3Instr := {}
  serial : Nat := 0
  part : Nat := 0
deriving DecidableEq, Repr

structure BranchPredictor where
  numEntries : Nat := 256
  gpSize : Nat := 0
  bimodalEntry : Nat → Nat := fun _ => 1
  globalHistory : Nat := 0

def BranchPredictor.miss (bp : BranchPredictor) (addr : Nat) (taken : Bool) :
    BranchPredictor × Bool :=
  let bit := if taken then 1 else 0
  let globalHistory := if bp.gpSize = 0 then 0 else ((bp.globalHistory <<< 1) + bit) % 2 ^ 64
  let i := (addr ^^^ (globalHistory <<< (64 - bp.gpSize)) % 2 ^ 64) % bp.numEntries
  let currEntry := bp.bimodalEntry i
  let next := if currEntry = 0 ∧ taken = false then 0
    else if currEntry = 3 ∧ taken = true then 3
    else if taken then currEntry + 1 else currEntry - 1
  ({ bp with globalHistory, bimodalEntry := Function.update bp.bimodalEntry i next },
    (1 < currEntry && !taken) || (currEntry < 2 && taken))

/-- The constants of a core, `o3queueParam` being the parameter `o3queue_max_size`. The constructor
checks `robSize`, and divides by the interval. -/
structure O3CoreConfig where
  num : Nat := 0
  numHthreads : Nat := 1
  lsuToL1iT : Nat := 10
  lsuToL1dT : Nat := 10
  spinningSlowdown : Nat := 10
  bypassTlb : Bool := false
  consecutiveNackThreshold : Nat := 1000
  mimickInorder : Bool := false
  o3queueParam : Nat := 64
  o3robMaxSize : Nat := 16
  maxIssueWidth : Nat := 4
  maxCommitWidth : Nat := 4
  maxAlu : Nat := 4
  maxLdst : Nat := 4
  maxLd : Nat := 4
  maxSt : Nat := 4
  maxSse : Nat := 4
  processInterval : Nat := 80
  branchMissPenalty : Nat := 160
  lockT : Nat := 160
  unlockT : Nat := 160
  barrierT : Nat := 160
  sseT : Nat := 40
  setLsb : Nat := 6
  xedX87Alu : Nat := 36
  xedSse : Nat := 37
  skipAllInstrs : Bool := false
  intervalPos : 0 < processInterval := by decide
  robSize : 4 ≤ o3robMaxSize := by decide

def O3CoreConfig.o3queueMaxSize (cfg : O3CoreConfig) : Nat := cfg.o3queueParam + 4

inductive CorePort
  | o3core | tlbl1i | cachel1i | tlbl1d | cachel1d
deriving DecidableEq, Repr

/-- `events` are the ticks at which the global queue holds the core and `now` is the one that is
being processed; `outstanding` are the requests without an answer. Ghost: the instructions
`accepted` from the frontend, those that `entered` the reorder buffer, and the entries that left
it. -/
structure O3Core where
  o3queue : RingBuffer O3Queue
  o3rob : RingBuffer O3Rob
  active : Bool := false
  resumeTime : Nat := 0
  numInstrs : Nat := 0
  numConsecutiveNacks : Nat := 0
  bp : BranchPredictor := {}
  isMigrateReady : Nat → Bool := fun _ => false
  now : Nat := 0
  events : Finset Nat := ∅
  outstanding : List (Call CorePort) := []
  accepted : List O3Instr := []
  entered : List O3Instr := []
  committed : List O3Rob := []

def wordLog : Nat := 3

namespace O3Instr

def isBranch (x : O3Instr) : Bool := x.type == .insBranchTaken || x.type == .insBranchNotTaken

def noMem (x : O3Instr) : Bool := x.raddr == 0 && x.raddr2 == 0 && x.waddr == 0

def addr (x : O3Instr) : Nat → Nat
  | 0 => x.raddr
  | 1 => x.raddr2
  | 2 => x.waddr
  | _ => 0

end O3Instr

namespace O3Rob

def done (t : Nat) (e : O3Rob) : Bool := e.state == .completed && e.readyTime ≤ t

def isRegDep (rr : Nat) (e : O3Rob) : Bool :=
  rr != 0 && (rr == e.rw0 || rr == e.rw1 || rr == e.rw2 || rr == e.rw3)

def free (e : O3Rob) : Bool :=
  e.memDep.isNone && e.instrDep.isNone && e.branchDep.isNone && e.rr0.isNone && e.rr1.isNone &&
    e.rr2.isNone && e.rr3.isNone

def clearDep (k : Nat) (dep : Option Nat) : Option Nat := if dep = some k then none else dep

/-- Slot `k` no longer holds an entry back. -/
def clear (k : Nat) (e : O3Rob) : O3Rob :=
  { e with
    memDep := clearDep k e.memDep, instrDep := clearDep k e.instrDep
    branchDep := clearDep k e.branchDep, rr0 := clearDep k e.rr0, rr1 := clearDep k e.rr1
    rr2 := clearDep k e.rr2, rr3 := clearDep k e.rr3 }

/-- How long an entry without a memory access takes; the sum has 32 bits. -/
def latency (cfg : O3CoreConfig) (e : O3Rob) : Nat :=
  if e.type = .insLock then cfg.lockT
  else if e.type = .insUnlock then cfg.unlockT
  else if e.type = .insBarrier then cfg.barrierT
  else if e.type = .insX87 then cfg.sseT
  else if e.branchMiss then (cfg.branchMissPenalty + cfg.processInterval) % 2 ^ 32
  else cfg.processInterval

end O3Rob

namespace O3Core

variable (cfg : O3CoreConfig)

def addEvent (s : O3Core) (t : Nat) : O3Core := { s with events := insert t s.events }

/-- `add_req_event` of a cache or a TLB -/
def request (s : O3Core) (callee : CorePort) (time : Nat) (lqe : Lqe CorePort) : O3Core :=
  { s with outstanding := s.outstanding ++ [{ callee, kind := .req, time, lqe }] }

def writeQueue (s : O3Core) (k : Nat) (e : O3Queue) : O3Core :=
  { s with o3queue := s.o3queue.write k e }

def writeRob (s : O3Core) (k : Nat) (e : O3Rob) : O3Core := { s with o3rob := s.o3rob.write k e }

def insType (x : PtsInstr) : InsType :=
  if x.islock ∧ x.isunlock ∧ ¬ x.isbarrier then .insNotify
  else if x.islock ∧ x.isunlock ∧ x.isbarrier then .insWaitfor
  else if x.isbranch ∧ x.isbranchtaken then .insBranchTaken
  else if x.isbranch ∧ ¬ x.isbranchtaken then .insBranchNotTaken
  else if x.category = cfg.xedX87Alu ∨ x.category = cfg.xedSse then .insX87
  else if x.islock then .insLock
  else if x.isunlock then .insUnlock
  else if x.isbarrier then .insBarrier
  else .noMem

def o3Instr (x : PtsInstr) : O3Instr :=
  { waddr := x.waddr, wlen := x.wlen, raddr := x.raddr, raddr2 := x.raddr2, rlen := x.rlen
    ip := x.ip, type := insType cfg x, rr0 := x.rr0, rr1 := x.rr1, rr2 := x.rr2, rr3 := x.rr3
    rw0 := x.rw0, rw1 := x.rw1, rw2 := x.rw2, rw3 := x.rw3 }

def wakeUp (s : O3Core) (currTime : Nat) : O3Core :=
  if s.o3queue.size = 0 ∧ s.resumeTime ≤ currTime then s.addEvent currTime else s

/-- The value is the number of slots that are left for the frontend. -/
def addInstruction (s : O3Core) (x : PtsInstr) : O3Core × Nat :=
  let s := s.wakeUp x.currTime
  let s := { s with numInstrs := s.numInstrs + 1 }
  if cfg.o3queueMaxSize ≤ s.o3queue.size then (s, 0)
  else
    let e : O3Queue :=
      { state := .notInQueue, readyTime := x.currTime, instr := o3Instr cfg x }
    let s := { s with o3queue := s.o3queue.push e, accepted := s.accepted ++ [o3Instr cfg x] }
    (s, if cfg.o3queueMaxSize < s.o3queue.size + 4 then 0
      else cfg.o3queueMaxSize - (s.o3queue.size + 4))

/-- Entry `i` of the queue joins the request for the line at `addrToRead`, 0 for no request yet. -/
def fetchOne (t : Nat) (st : O3Core × Nat) (i : Nat) : O3Core × Nat :=
  let k := st.1.o3queue.slot i
  let e := st.1.o3queue.slots k
  let line := (e.instr.ip >>> cfg.setLsb) <<< cfg.setLsb
  if e.state ≠ .notInQueue then st
  else if st.2 = 0 then
    let s := st.1.writeQueue k { e with state := .beingLoaded }
    let lqe := Lqe.new .o3core .tlbRd line cfg.num
    if cfg.bypassTlb then (s.request .cachel1i (t + cfg.lsuToL1iT) { lqe with type := .read }, line)
    else (s.request .tlbl1i (t + cfg.lsuToL1iT) lqe, line)
  else if st.2 >>> cfg.setLsb = e.instr.ip >>> cfg.setLsb then
    (st.1.writeQueue k { e with state := .beingLoaded }, st.2)
  else st

def fetch (t : Nat) (s : O3Core) : O3Core :=
  ((List.range s.o3queue.size).foldl (fetchOne cfg t) (s, 0)).1

structure Deps where
  branchMiss : Bool
  branchDep : Option Nat
  rr0 : Option Nat
  rr1 : Option Nat
  rr2 : Option Nat
  rr3 : Option Nat

def branchMiss (s : O3Core) (x : O3Instr) : BranchPredictor × Bool :=
  if x.isBranch then s.bp.miss x.ip (x.type == .insBranchTaken) else (s.bp, false)

def regDep (s : O3Core) (t rr : Nat) : Option Nat :=
  s.o3rob.youngest fun e => !e.done t && e.isRegDep rr

def memDep (s : O3Core) (t memaddr : Nat) : Option Nat :=
  s.o3rob.youngest fun e => !e.done t && e.memaddr >>> wordLog == memaddr >>> wordLog

def deps (s : O3Core) (t : Nat) (x : O3Instr) : Deps :=
  { branchMiss := (s.branchMiss x).2
    branchDep := s.o3rob.youngest fun e => !e.done t && e.branchMiss
    rr0 := s.regDep t x.rr0, rr1 := s.regDep t x.rr1
    rr2 := s.regDep t x.rr2, rr3 := s.regDep t x.rr3 }

/-- What the loop over the parts writes into the next slot, also for a part that it then skips. -/
def scratch (t : Nat) (x : O3Instr) (s : O3Core) : O3Core :=
  let k := s.o3rob.slot s.o3rob.size
  s.writeRob k { s.o3rob.slots k with
    state := .issued, readyTime := t + cfg.processInterval, ip := x.ip }

/-- The rest of the entry for part `k`. The slot is `rob_idx`, which the loop keeps at
`(o3rob_head + o3rob_size) % o3rob_max_size`. -/
def fill (x : O3Instr) (d : Deps) (s : O3Core) (k memaddr : Nat) (memDep instrDep : Option Nat) :
    O3Core :=
  { s with o3rob := s.o3rob.push { s.o3rob.slots (s.o3rob.slot s.o3rob.size) with
      memaddr, branchMiss := d.branchMiss, isread := k < 2, memDep, instrDep
      branchDep := d.branchDep, type := x.type, rr0 := d.rr0, rr1 := d.rr1, rr2 := d.rr2
      rr3 := d.rr3, rw0 := x.rw0, rw1 := x.rw1, rw2 := x.rw2, rw3 := x.rw3
      instr := x, serial := s.entered.length, part := k } }

/-- Part `k < 3`, an access unless its address is 0; beside the state goes `instr_dep`. -/
def issuePart (t : Nat) (x : O3Instr) (d : Deps) (st : O3Core × Option Nat) (k : Nat) :
    O3Core × Option Nat :=
  let s := scratch cfg t x st.1
  if x.addr k = 0 then (s, st.2)
  else (s.fill x d k (x.addr k) (s.memDep t (x.addr k)) st.2, some (s.o3rob.slot s.o3rob.size))

/-- Part 3, for an instruction without accesses -/
def issueNoMem (t : Nat) (x : O3Instr) (d : Deps) (st : O3Core × Option Nat) : O3Core :=
  let s := scratch cfg t x st.1
  if x.noMem then s.fill x d 3 0 none st.2 else s

def predict (t : Nat) (x : O3Instr) (s : O3Core) : O3Core :=
  { s with bp := (s.branchMiss x).1 }.addEvent (t + cfg.processInterval)

def dequeue (x : O3Instr) (s : O3Core) : O3Core :=
  let k := s.o3queue.head
  let s := s.writeQueue k { s.o3queue.slots k with state := .invalid }
  { s with o3queue := s.o3queue.pop, entered := s.entered ++ [x] }

def issueInstr (t : Nat) (x : O3Instr) (s : O3Core) : O3Core :=
  let d := s.deps t x
  (issueNoMem cfg t x d ([0, 1, 2].foldl (issuePart cfg t x d) (predict cfg t x s, none))).dequeue x

def issueOne (t : Nat) (s : O3Core) : O3Core :=
  let e := s.o3queue.slots s.o3queue.head
  if e.state = .ready ∧ e.readyTime ≤ t then issueInstr cfg t e.instr s else s

def issueLoop (t : Nat) : Nat → O3Core → O3Core
  | 0, s => s
  | n + 1, s =>
    if 0 < s.o3queue.size ∧ s.o3rob.size < cfg.o3robMaxSize - 3
      then issueLoop t n (issueOne cfg t s)
    else s

def issue (t : Nat) (s : O3Core) : O3Core := issueLoop cfg t cfg.maxIssueWidth s

structure Units where
  numAlu : Nat := 0
  numLdst : Nat := 0
  numLd : Nat := 0
  numSt : Nat := 0
  numSse : Nat := 0

def complete (s : O3Core) (k r : Nat) : O3Core :=
  (s.writeRob k { s.o3rob.slots k with state := .completed, readyTime := r }).addEvent r

/-- The access of the entry in slot `k` goes out, for entry `n` of all that entered. -/
def access (t k n : Nat) (s : O3Core) : O3Core :=
  let e := s.o3rob.slots k
  let s := s.writeRob k { e with state := .executing }
  let lqe := { Lqe.new CorePort.o3core .tlbRd e.memaddr cfg.num with
    robEntry := (k : Int), serial := some n }
  if cfg.bypassTlb then
    s.request .cachel1d (t + cfg.lsuToL1dT) { lqe with type := if e.isread then .read else .write }
  else s.request .tlbl1d (t + cfg.lsuToL1dT) lqe

/-- The event that goes with a `break`. -/
def retry (t : Nat) (s : O3Core) : O3Core := s.addEvent (t + cfg.processInterval)

/-- An entry without dependencies starts where a unit is left. -/
def start (t i : Nat) (s : O3Core) (u : Units) : O3Core × Units :=
  let k := s.o3rob.slot i
  let e := s.o3rob.slots k
  if e.memaddr = 0 ∧ u.numAlu < cfg.maxAlu ∧ (e.type ≠ .insX87 ∨ u.numSse < cfg.maxSse) then
    (s.complete k (t + e.latency cfg),
      { u with
        numAlu := u.numAlu + 1
        numSse := u.numSse + if e.type = .insX87 then 1 else 0 })
  else if e.memaddr ≠ 0 ∧ u.numLdst < cfg.maxLdst ∧
      ((e.isread = true ∧ u.numLd < cfg.maxLd) ∨ (e.isread = false ∧ u.numSt < cfg.maxSt)) then
    (access cfg t k (s.committed.length + i) s,
      { u with
        numLdst := u.numLdst + 1
        numLd := u.numLd + if e.isread then 1 else 0
        numSt := u.numSt + if e.isread then 0 else 1 })
  else (s, u)

/-- Entry `i` in its turn; the value tells whether the loop goes on. -/
def executeOne (t i : Nat) (s : O3Core) (u : Units) : (O3Core × Units) × Bool :=
  let k := s.o3rob.slot i
  let e := s.o3rob.slots k
  if e.state = .issued ∧ e.readyTime ≤ t then
    if e.type = .insNotify then
      if i = 0 then
        ((({ s with isMigrateReady := Function.update s.isMigrateReady e.rw0 true }).complete k
          (t + cfg.barrierT), u), true)
      else ((retry cfg t s, u), false)
    else if e.type = .insWaitfor then
      if i = 0 ∧ s.isMigrateReady e.rw0 = true then
        ((({ s with isMigrateReady := Function.update s.isMigrateReady e.rw0 false }).complete k
          (t + cfg.processInterval), u), true)
      else ((retry cfg t s, u), false)
    else if e.free then (start cfg t i s u, true)
    else if cfg.mimickInorder then ((retry cfg t s, u), false)
    else ((s, u), true)
  else if cfg.mimickInorder then ((retry cfg t s, u), false)
  else ((s, u), true)

def executeLoop (t : Nat) : List Nat → O3Core → Units → O3Core
  | [], s, _ => s
  | i :: is, s, u =>
    let r := executeOne cfg t i s u
    if r.2 then executeLoop t is r.1.1 r.1.2 else r.1.1

def execute (t : Nat) (s : O3Core) : O3Core := executeLoop cfg t (List.range s.o3rob.size) s {}

def clearOne (k : Nat) (s : O3Core) (j : Nat) : O3Core :=
  let e := s.o3rob.slots (s.o3rob.slot j)
  if e.state ≠ .issued then s else s.writeRob (s.o3rob.slot j) (e.clear k)

/-- An entry that is completed at this very tick wakes those behind it. -/
def wakeOne (t : Nat) (s : O3Core) (i : Nat) : O3Core :=
  let k := s.o3rob.slot i
  let e := s.o3rob.slots k
  if e.state = .completed ∧ e.readyTime = t then
    (List.range' (i + 1) (s.o3rob.size - (i + 1))).foldl (clearOne k) (retry cfg t s)
  else s

def wake (t : Nat) (s : O3Core) : O3Core := (List.range s.o3rob.size).foldl (wakeOne cfg t) s

def commitOne (s : O3Core) : O3Core :=
  let k := s.o3rob.head
  let e := s.o3rob.slots k
  let s := s.writeRob k { e with state := .invalid }
  { s with o3rob := s.o3rob.pop, committed := s.committed ++ [e] }

def commitLoop (t : Nat) : Nat → O3Core → O3Core
  | 0, s => s
  | n + 1, s =>
    if 0 < s.o3rob.size then
      commitLoop t n (if (s.o3rob.slots s.o3rob.head).done t then s.commitOne else s)
    else s

def commit (t : Nat) (s : O3Core) : O3Core :=
  let s := commitLoop t cfg.maxCommitWidth s
  if 0 < s.o3rob.size ∧ (s.o3rob.slots s.o3rob.head).done t = true then retry cfg t s else s

def skip (t : Nat) (s : O3Core) : O3Core :=
  if cfg.skipAllInstrs then { s with o3queue := s.o3queue.clear, resumeTime := t } else s

def hungry (s : O3Core) : Bool := s.o3queue.size ≤ cfg.o3queueMaxSize >>> 1 && s.active

/-- The queue, and then the reorder buffer. -/
def phases (t : Nat) (s : O3Core) : O3Core :=
  commit cfg t (wake cfg t (execute cfg t (issue cfg t (fetch cfg t s))))

def processEvent (s : O3Core) (t : Nat) : O3Core × Nat :=
  let s := skip cfg t s
  if s.hungry cfg then (s.addEvent t, cfg.num) else (phases cfg t s, cfg.numHthreads)

def loadOne (aligned address : Nat) (s : O3Core) (i : Nat) : O3Core :=
  let k := s.o3queue.slot i
  let e := s.o3queue.slots k
  if e.state = .beingLoaded ∧ address >>> cfg.setLsb = e.instr.ip >>> cfg.setLsb then
    s.writeQueue k { e with state := .ready, readyTime := aligned }
  else s

/-- The request goes out once more, after `delay`. -/
def resend (s : O3Core) (callee : CorePort) (type : EventType) (time delay : Nat)
    (lqe : Lqe CorePort) : O3Core :=
  { s with resumeTime := time }.request callee (time + delay) { lqe with path := [.o3core], type }

/-- An answer that is no NACK makes the core run. -/
def served (aligned : Nat) (s : O3Core) : O3Core :=
  { s.addEvent aligned with numConsecutiveNacks := 0 }

/-- `O3Core::add_req_event`, for answers to fetches -/
def addReqEvent (s : O3Core) (time : Nat) (lqe : Lqe CorePort) : Except Abort O3Core :=
  if lqe.type = .tlbRd then return s.resend .cachel1i .read time cfg.lsuToL1iT lqe
  else if lqe.type = .nack then
    let s := { s with numConsecutiveNacks := s.numConsecutiveNacks + 1 }.resend .cachel1i .read time
      (cfg.lsuToL1iT + cfg.spinningSlowdown * cfg.processInterval) lqe
    if cfg.consecutiveNackThreshold < s.numConsecutiveNacks then .error .fatal else return s
  else
    let aligned := ceilByY time cfg.processInterval
    let s := s.served aligned
    return (List.range s.o3queue.size).foldl (loadOne cfg aligned lqe.address) s

/-- `O3Core::add_rep_event`, for answers to accesses -/
def addRepEvent (s : O3Core) (time : Nat) (lqe : Lqe CorePort) : Except Abort O3Core :=
  let k := lqe.robEntry.toNat
  let e := s.o3rob.slots k
  let type := if e.isread then EventType.read else .write
  if lqe.type = .tlbRd then return s.resend .cachel1d type time cfg.lsuToL1dT lqe
  else if lqe.type = .nack then
    let s := { s with numConsecutiveNacks := s.numConsecutiveNacks + 1 }.resend .cachel1d type time
      (cfg.lsuToL1dT + cfg.spinningSlowdown * cfg.processInterval) lqe
    if cfg.consecutiveNackThreshold < s.numConsecutiveNacks then .error .fatal else return s
  else
    let aligned := ceilByY time cfg.processInterval
    let s := s.served aligned
    if lqe.robEntry < 0 ∨ (cfg.o3robMaxSize : Int) ≤ lqe.robEntry then .error .fatal
    else return s.complete k (aligned + if e.branchMiss then cfg.branchMissPenalty else 0)

end O3Core

/-- What happens to a core. An answer of some type comes at some time to the `n`-th request that
has none; the other cores may change `is_migrate_ready`; time goes on. -/
inductive CoreEvent
  | addInstruction (x : PtsInstr)
  | setActive (isActive : Bool)
  | processEvent (t : Nat)
  | answer (n : Nat) (type : EventType) (time : Nat)
  | migrate (isMigrateReady : Nat → Bool)
  | advance (t : Nat)

namespace O3Core

variable (cfg : O3CoreConfig)

def answer (s : O3Core) (n : Nat) (type : EventType) (time : Nat) : Except Abort O3Core :=
  match s.outstanding[n]? with
  | none => .error .undefined
  | some call =>
    let s := { s with outstanding := s.outstanding.eraseIdx n }
    let lqe := { call.lqe with type }
    match call.callee with
    | .tlbl1i | .cachel1i => addReqEvent cfg s time lqe
    | .tlbl1d | .cachel1d => addRepEvent cfg s time lqe
    | .o3core => .error .undefined

def take (s : O3Core) (t : Nat) : O3Core := { s with now := t, events := s.events.erase t }

def dispatch (s : O3Core) (t : Nat) : O3Core × Nat := processEvent cfg (s.take t) t

def step (s : O3Core) : CoreEvent → Except Abort O3Core
  | .addInstruction x => .ok (addInstruction cfg s x).1
  | .setActive isActive => .ok { s with active := isActive }
  | .processEvent t => .ok (dispatch cfg s t).1
  | .answer n type time => answer cfg s n type time
  | .migrate isMigrateReady => .ok { s with isMigrateReady }
  | .advance t => .ok { s with now := t }

def init : O3Core :=
  { o3queue := { slots := fun _ => {}, cap := cfg.o3queueMaxSize }
    o3rob := { slots := fun _ => {}, cap := cfg.o3robMaxSize } }

inductive Run : O3Core → Prop
  | init : Run (init cfg)
  | step {s s'} (e : CoreEvent) : Run s → step cfg s e = .ok s' → Run s'

/-- The global queue dispatches every tick in time order, and nothing comes from the past. -/
def Timely (s : O3Core) : CoreEvent → Prop
  | .addInstruction x => s.now ≤ x.currTime
  | .processEvent t => t ∈ s.events ∧ ∀ u ∈ s.events, t ≤ u
  | .answer _ _ time => s.now ≤ time
  | .advance t => s.now ≤ t ∧ ∀ u ∈ s.events, t ≤ u
  | _ => True

instance (s : O3Core) : DecidablePred s.Timely
  | .addInstruction x => inferInstanceAs (Decidable (s.now ≤ x.currTime))
  | .setActive _ => isTrue trivial
  | .processEvent t => inferInstanceAs (Decidable (t ∈ s.events ∧ ∀ u ∈ s.events, t ≤ u))
  | .answer _ _ time => inferInstanceAs (Decidable (s.now ≤ time))
  | .migrate _ => isTrue trivial
  | .advance t => inferInstanceAs (Decidable (s.now ≤ t ∧ ∀ u ∈ s.events, t ≤ u))

inductive TimelyRun (ok : O3Core → CoreEvent → Prop) : O3Core → Prop
  | init : TimelyRun ok (init cfg)
  | step {s s'} (e : CoreEvent) : TimelyRun ok s → s.Timely e → ok s e → step cfg s e = .ok s' →
      TimelyRun ok s'

def follow (ok : O3Core → CoreEvent → Prop) [∀ s, DecidablePred (ok s)] :
    O3Core → List CoreEvent → Option O3Core
  | s, [] => some s
  | s, e :: es =>
    if s.Timely e ∧ ok s e then
      match step cfg s e with
      | .ok s' => follow ok s' es
      | .error _ => none
    else none

variable {cfg} {s s' : O3Core}

theorem TimelyRun.run {ok : O3Core → CoreEvent → Prop} (h : TimelyRun cfg ok s) : Run cfg s := by
  induction h with
  | init => exact .init
  | step e _ _ _ hs ih => exact .step e ih hs

theorem TimelyRun.follow {ok : O3Core → CoreEvent → Prop} [∀ s, DecidablePred (ok s)]
    {es : List CoreEvent} (h : TimelyRun cfg ok s) (hs : O3Core.follow cfg ok s es = some s') :
    TimelyRun cfg ok s' := by
  induction es generalizing s with
  | nil =>
    cases hs
    exact h
  | cons e es ih =>
    unfold O3Core.follow at hs
    split at hs
    · rename_i allowed
      split at hs
      · rename_i one
        exact ih (h.step e allowed.1 allowed.2 one) hs
      · cases hs
    · cases hs

theorem TimelyRun.last {ok : O3Core → CoreEvent → Prop} [∀ s, DecidablePred (ok s)]
    (h : TimelyRun cfg ok s) (es : List CoreEvent)
    (ends : (O3Core.follow cfg ok s es).isSome = true) :
    TimelyRun cfg ok ((O3Core.follow cfg ok s es).getD s) := by
  obtain ⟨s', hs⟩ := Option.isSome_iff_exists.mp ends
  rw [hs]
  exact h.follow hs

end O3Core
end McSim
