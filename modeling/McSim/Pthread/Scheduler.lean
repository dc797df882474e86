import McSim.Pthread.Pts
import Mathlib.Algebra.Group.Nat.Defs
import Mathlib.Data.Finset.Card
import Mathlib.Data.List.InsertIdx

/-! The scheduler of the emulated threads.
A thread runs until a call of `resume_simulation` names the hthread that goes on; control passes
there and does not return. The map `pthreads` is the set `live` of its keys with their values. -/

namespace McSim.Pthread

/-- `Pthread`, with a null `stack` as 0 -/
structure ThreadState where
  active : Bool := true
  started : Bool := true
  executed : Bool := true
  stack : Nat := 0
  stacksize : Nat := 0
  skipInstrs : Int := 0
  spinning : Int := 0
deriving DecidableEq, Repr

def defStackSz : Nat := 0x800000

/-- `PthreadScheduler`. An iterator is the key it points to, `none` a default one in `hth_to_pth`.
`calls` is ghost: what `pts` has been called for. So is `sent`: for each message on behalf of a
thread, the thread, the hthread number that went out and the one that `pth_to_hth` held. -/
structure Scheduler where
  pts : Pts
  live : Finset Nat := ∅
  pthreads : Nat → ThreadState := fun _ => {}
  current : Nat := 0
  nactive : UInt32 := 0
  currTime : Nat := 0
  pthToHth : Nat → Nat := fun _ => 0
  hthToPth : List (Option Nat)
  ignoreSkipInstrs : Bool := false
  calls : List Op := []
  sent : List (Nat × Nat × Nat) := []

namespace Scheduler

def setThread (s : Scheduler) (t : Nat) (p : ThreadState) : Scheduler :=
  { s with pthreads := Function.update s.pthreads t p }

/-- A `pthread_t` as the `int32_t` that `set_active` and `set_stack_n_size` take. -/
def asHthread (t : Nat) : Nat := t % 2 ^ 32

/-- `pth_to_hth[pthreads[thread]]`, for a missing thread that of the null pointer -/
def slotOf (s : Scheduler) (t : Nat) : Nat := if t ∈ s.live then s.pthToHth t else 0

def asks (s : Scheduler) (op : Op) : Scheduler := { s with calls := s.calls ++ [op] }

@[simp] theorem asks_live (s : Scheduler) (op : Op) : (s.asks op).live = s.live := rfl

@[simp] theorem asks_hthToPth (s : Scheduler) (op : Op) : (s.asks op).hthToPth = s.hthToPth := rfl

def sends (s : Scheduler) (t n : Nat) : Scheduler :=
  { s with sent := s.sent ++ [(t, n, s.slotOf t)] }

/-- The `PthreadTimingSimulator::add_instruction` calls that carry no instruction of a program. -/
def addInstruction (s : Scheduler) (t hthread : Nat) (x : PtsInstr) : Except Stop Scheduler := do
  let x := { x with hthreadid := hthread, currTime := s.currTime }
  let r ← s.pts.addInstruction x false
  return ({ s with pts := r.1 }.asks (.addInstruction x)).sends t hthread

def setStackNSize (s : Scheduler) (t hthread stack stacksize : Nat) : Except Stop Scheduler := do
  let pts ← s.pts.setStackNSize hthread stack stacksize
  return ({ s with pts }.asks (.setStackNSize hthread stack stacksize)).sends t hthread

def setActive (s : Scheduler) (t hthread : Nat) (isActive : Bool) : Except Stop Scheduler := do
  let pts ← s.pts.setActive hthread isActive
  return ({ s with pts }.asks (.setActive hthread isActive)).sends t hthread

def getCurrTime (s : Scheduler) : Except Stop Scheduler := do
  let r ← s.pts.getCurrTime
  return { s with pts := r.1 }.asks .getCurrTime

def getStackSz (s : Scheduler) : Except Stop (Scheduler × Nat) := do
  let r ← s.pts.getParamUint64 "stack_sz" defStackSz
  return ({ s with pts := r.1 }.asks (.getParamUint64 "stack_sz" defStackSz), r.2)

/-- The constructor of `Pthread`; `mapped` is what `mmap` returns for the stack. -/
def newThread (s : Scheduler) (hasStartctxt : Bool) (mapped : Nat) :
    Except Stop (Scheduler × ThreadState) :=
  if hasStartctxt = false then return (s, {})
  else do
    let r ← s.getStackSz
    let stacksize := if r.2 / 8 % 2 = 0 then r.2 + 8 else r.2
    return (r.1, { started := false, stack := mapped, stacksize })

def enter (s : Scheduler) (t : Nat) (p : ThreadState) : Scheduler :=
  let n := s.live.card
  { s with
    live := insert t s.live
    pthreads := Function.update s.pthreads t p
    current := if n = 0 then t else s.current
    nactive := s.nactive + 1
    hthToPth := s.hthToPth.insertIdx n (some t)
    pthToHth := Function.update s.pthToHth t n }

def announce (s : Scheduler) (t n : Nat) (p : ThreadState) : Except Stop Scheduler := do
  let s ← s.setStackNSize t n p.stack p.stacksize
  let s ← s.setActive t n p.active
  let s ← s.getCurrTime
  if n = 0 then return s else s.addInstruction t n { hthreadid := n, currTime := 0 }

def addThread (s : Scheduler) (t : Nat) (hasStartctxt : Bool) (mapped : Nat) :
    Except Stop Scheduler :=
  if t ∈ s.live then .error .assertion
  else do
    let r ← s.newThread hasStartctxt mapped
    let n := s.live.card
    if n ≠ 0 ∧ s.pts.numHthreads < n + 1 then .error .tooManyThreads
    else (r.1.enter t r.2).announce t n r.2

def killThread (s : Scheduler) (t : Nat) : Except Stop Scheduler :=
  if t = s.current ∧ ¬ (t ∈ s.live ∧ (s.pthreads t).active = true) then .error .assertion
  else do
    let n := s.slotOf t
    let s ← s.setStackNSize t n 0 0
    let s ← s.setActive t n false
    let s ← s.getCurrTime
    return { s with live := s.live.erase t, nactive := s.nactive - 1 }

/-- `SetActiveState`: the simulator gets the thread's id. -/
def setActiveState (s : Scheduler) (t : Nat) (isActive : Bool) : Except Stop Scheduler :=
  if t ∉ s.live then .error .assertion
  else (s.setThread t { s.pthreads t with active := isActive }).setActive t (asHthread t) isActive

def switchTo (s : Scheduler) (mustSwitch : Bool) (t : Nat) : Scheduler :=
  let p := s.pthreads t
  if t = s.current ∧ p.started = true then s.setThread t { p with executed := true }
  else if 1 < s.nactive ∨ mustSwitch = true then
    { s with current := t }.setThread t { p with started := true }
  else { s with current := t }

/-- Control passes to the thread at the place that the simulator names. -/
def resumeSimulation (s : Scheduler) (mustSwitch killed : Bool) : Except Stop Scheduler := do
  let r ← s.pts.resumeSimulation mustSwitch killed
  let s := { s with pts := r.1, currTime := r.2.2 }.asks (.resumeSimulation mustSwitch killed)
  match s.hthToPth[r.2.1]? with
  | some (some t) => if t ∈ s.live then return s.switchTo mustSwitch t else .error .undefined
  | _ => .error .undefined

/-- A barrier goes out as the address that an instruction writes. -/
def announceBarrier (s : Scheduler) (t barrier nPart : Nat) : Except Stop Scheduler :=
  if barrier = 0 then return s
  else s.addInstruction t (s.pthToHth t)
    { hthreadid := 0, currTime := 0, waddr := barrier, wlen := nPart, isbarrier := true }

/-- The rest of `BlockThread` for an active thread. -/
def deschedule (s : Scheduler) (t : Nat) : Except Stop Scheduler := do
  let s ← s.setActiveState t false
  let s := { s with nactive := s.nactive - 1 }
  if s.nactive = 0 then .error .assertion
  else if s.current ∉ s.live then .error .undefined
  else
    (s.setThread s.current { s.pthreads s.current with executed := false }).resumeSimulation true
      false

def blockThread (s : Scheduler) (t barrier nPart : Nat) : Except Stop Scheduler :=
  if t ∉ s.live then .error .assertion
  else do
    let s ← s.announceBarrier t barrier nPart
    if (s.pthreads t).active = true then s.deschedule t else .error .assertion

def unblockThread (s : Scheduler) (t : Nat) : Except Stop Scheduler :=
  if t ∉ s.live ∨ (s.pthreads t).active = true then .error .assertion
  else do
    let s ← s.setActiveState t true
    let s ← s.addInstruction t (s.pthToHth t) { hthreadid := 0, currTime := 0 }
    return { s with nactive := s.nactive + 1 }

def skipped (s : Scheduler) : Bool :=
  let p := s.pthreads s.current
  !s.ignoreSkipInstrs && 0 < p.skipInstrs && p.spinning ≤ 0

def addSynchInstruction (s : Scheduler) (t : Nat) (islock isunlock : Bool) (barrier nPart : Nat) :
    Except Stop Scheduler :=
  if s.current ∉ s.live then .error .undefined
  else if s.skipped then return s
  else if t ∉ s.live then .error .assertion
  else if barrier ≠ 0 then
    s.addInstruction t (s.pthToHth t)
      { hthreadid := 0, currTime := 0, waddr := barrier, wlen := nPart, islock, isunlock
        isbarrier := true }
  else s.addInstruction t (s.pthToHth t) { hthreadid := 0, currTime := 0, islock, isunlock }

def processIns (s : Scheduler) (hasContext : Bool) (x : PtsInstr) : Except Stop Scheduler :=
  if s.current ∉ s.live then .error .undefined
  else
    let p := s.pthreads s.current
    if p.executed = false ∧ hasContext = true then
      return s.setThread s.current { p with executed := true }
    else if s.skipped then return s
    else do
      let n := s.pthToHth s.current
      let x := { x with
        hthreadid := n, currTime := s.currTime, islock := false
        isunlock := false, isbarrier := false }
      let r ← s.pts.addInstruction x true
      let s := ({ s with pts := r.1 }.asks (.addInstruction x)).sends s.current n
      if r.2 = false then return s
      else if 1 < s.nactive then
        (s.setThread s.current { p with executed := false }).resumeSimulation false false
      else s.resumeSimulation false false

def setStack (s : Scheduler) (stackPtr : Nat) : Except Stop Scheduler :=
  if s.current ∉ s.live then .error .undefined
  else if (s.pthreads s.current).stack ≠ 0 then return s
  else do
    let r ← s.getStackSz
    let stacksize := r.2
    let stack := (stackPtr + (2 ^ 64 - stacksize) + 8) % 2 ^ 64
    let s := r.1.setThread s.current { s.pthreads s.current with stack, stacksize }
    s.setStackNSize s.current (asHthread s.current) stack stacksize

/-- `mcsim_skip_instrs_begin` and `_end`, `mcsim_spinning_begin` and `_end` -/
def mark (s : Scheduler) (skip spin : Int) : Except Stop Scheduler :=
  if s.current ∉ s.live then .error .undefined
  else
    let p := s.pthreads s.current
    return s.setThread s.current
      { p with skipInstrs := p.skipInstrs + skip, spinning := p.spinning + spin }

/-- `PthreadScheduler::PthreadScheduler`, once the simulator has told what it is made of -/
def start (numHthreads : Nat) (replies : Nat → Reply) (ignoreSkipInstrs : Bool) : Scheduler :=
  { pts := { numHthreads, replies }, hthToPth := List.replicate numHthreads none, ignoreSkipInstrs }

end Scheduler

inductive SchedulerCall
  | addThread (t : Nat) (hasStartctxt : Bool) (mapped : Nat)
  | killThread (t : Nat)
  | blockThread (t barrier nPart : Nat)
  | unblockThread (t : Nat)
  | addSynchInstruction (t : Nat) (islock isunlock : Bool) (barrier nPart : Nat)
  | processIns (hasContext : Bool) (x : PtsInstr)
  | resumeSimulation (mustSwitch killed : Bool)
  | setStack (stackPtr : Nat)
  | mark (skip spin : Int)

namespace Scheduler

def call (s : Scheduler) : SchedulerCall → Except Stop Scheduler
  | .addThread t hasStartctxt mapped => s.addThread t hasStartctxt mapped
  | .killThread t => s.killThread t
  | .blockThread t barrier nPart => s.blockThread t barrier nPart
  | .unblockThread t => s.unblockThread t
  | .addSynchInstruction t islock isunlock barrier nPart =>
    s.addSynchInstruction t islock isunlock barrier nPart
  | .processIns hasContext x => s.processIns hasContext x
  | .resumeSimulation mustSwitch killed => s.resumeSimulation mustSwitch killed
  | .setStack stackPtr => s.setStack stackPtr
  | .mark skip spin => s.mark skip spin

def run (s : Scheduler) (calls : List SchedulerCall) : Except Stop Scheduler := calls.foldlM call s

end Scheduler
end McSim.Pthread
