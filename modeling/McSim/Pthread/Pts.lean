import McSim.Lib.Contract
import Mathlib.Logic.Function.Basic
import Mathlib.Data.List.Basic

/-! The frontend's end of the timing simulator.
Instructions are piled in the one message buffer that every other message is written to as well.
Here the simulator answers a message at once; what it answers is left open. -/

namespace McSim.Pthread

/-- Why a frontend process stops: an `exit(1)`, an `assert`, an `ASSERT`, or a step C++ gives no
meaning to. -/
inductive Stop
  | mixedHthreads
  | batchFull
  | notBatch
  | emptyBatch
  | tooManyThreads
  | assertion
  | undefined
deriving DecidableEq, Repr

def instrBatchSize : Nat := 32

structure PtsInstr where
  hthreadid : Nat
  currTime : Nat
  waddr : Nat := 0
  wlen : Nat := 0
  raddr : Nat := 0
  raddr2 : Nat := 0
  rlen : Nat := 0
  ip : Nat := 0
  category : Nat := 0
  isbranch : Bool := false
  isbranchtaken : Bool := false
  islock : Bool := false
  isunlock : Bool := false
  isbarrier : Bool := false
  rr0 : Nat := 0
  rr1 : Nat := 0
  rr2 : Nat := 0
  rr3 : Nat := 0
  rw0 : Nat := 0
  rw1 : Nat := 0
  rw2 : Nat := 0
  rw3 : Nat := 0
deriving DecidableEq, Repr

inductive Op
  | resumeSimulation (mustSwitch killed : Bool)
  | addInstruction (instr : PtsInstr)
  | setStackNSize (hthread stack stacksize : Nat)
  | setActive (hthread : Nat) (isActive : Bool)
  | getNumHthreads
  | getParamUint64 (str : String) (def_value : Nat)
  | getParamBool (str : String) (def_value : Bool)
  | getCurrTime
deriving DecidableEq, Repr

inductive PtsMsgType
  | invalid | constructor | destructor | resumeSimulation | addInstruction | setStackNSize
      | setActive | getNumHthreads
  | getParamUint64 | getParamBool | getCurrTime
deriving DecidableEq, Repr

/-- `PTSMessage`. The union `val` is either instructions or a string: `none` stands for what the
other member has overwritten. -/
structure PtsMessage where
  type : PtsMsgType := .invalid
  boolVal : Bool := false
  killed : Bool := false
  uint32Val : Nat := 0
  uint64Val : Nat := 0
  stackVal : Nat := 0
  stacksizeVal : Nat := 0
  instr : Nat → Option PtsInstr := fun _ => none
  str : Option String := none

namespace PtsMessage

def putInstr (m : PtsMessage) (i : Nat) (x : PtsInstr) : PtsMessage :=
  { m with instr := Function.update m.instr i (some x), str := none }

/-- `strcpy(ptsmessage->val.str, str)` -/
def putStr (m : PtsMessage) (str : String) : PtsMessage :=
  { m with instr := fun _ => none, str := some str }

def batch (m : PtsMessage) : Nat → Except Stop (List PtsInstr)
  | 0 => return []
  | n + 1 => do
    let xs ← m.batch n
    match m.instr n with
    | none => .error .undefined
    | some x => return xs ++ [x]

/-- What the loop of `main` does about a message. -/
def ops (m : PtsMessage) : Except Stop (List Op) :=
  match m.type with
  | .resumeSimulation => return [.resumeSimulation m.boolVal m.killed]
  | .addInstruction =>
    if m.uint32Val = 0 then .error .emptyBatch
    else do
      let xs ← m.batch m.uint32Val
      return xs.map .addInstruction
  | .setStackNSize => return [.setStackNSize m.uint32Val m.stackVal m.stacksizeVal]
  | .setActive => return [.setActive m.uint32Val m.boolVal]
  | .getNumHthreads => return [.getNumHthreads]
  | .getParamUint64 =>
    match m.str with
    | none => .error .undefined
    | some str => return [.getParamUint64 str m.uint64Val]
  | .getParamBool =>
    match m.str with
    | none => .error .undefined
    | some str => return [.getParamBool str m.boolVal]
  | .getCurrTime => return [.getCurrTime]
  | .destructor => return [.resumeSimulation true false]
  | .invalid | .constructor => .error .undefined

end PtsMessage

/-- The values the simulator may answer with: free slots, the hthread to resume and its time, and
what is asked for by name. -/
structure Reply where
  slots : Nat := 0
  hthread : Nat := 0
  time : Nat := 0
  value : Nat := 0
  flag : Bool := false

/-- The part of the message in front of `val` comes back. -/
def PtsMessage.answered (m : PtsMessage) (r : Reply) : PtsMessage :=
  match m.type with
  | .resumeSimulation => { m with uint32Val := r.hthread, uint64Val := r.time }
  | .addInstruction => { m with uint32Val := r.slots }
  | .getNumHthreads => { m with uint32Val := r.value }
  | .getParamUint64 | .getCurrTime => { m with uint64Val := r.value }
  | .getParamBool => { m with boolVal := r.flag }
  | _ => m

/-- `PthreadTimingSimulator` of the frontend. `replies` are the answers to come; `performed` is
ghost: what the simulator has done. -/
structure Pts where
  message : PtsMessage := {}
  numPiledInstr : Nat := 0
  numHthreads : Nat
  numAvailableSlot : Nat → Nat := fun _ => 1
  replies : Nat → Reply
  performed : List Op := []

namespace Pts

def syncWithMcsim (s : Pts) : Except Stop Pts := do
  let ops ← s.message.ops
  return { s with
    message := s.message.answered (s.replies 0)
    replies := fun n => s.replies (n + 1)
    performed := s.performed ++ ops }

def sendInstrBatch (s : Pts) : Except Stop Pts :=
  if s.message.type ≠ .addInstruction then .error .notBatch
  else do
    let s ← s.syncWithMcsim
    match s.message.instr (s.numPiledInstr - 1) with
    | none => .error .undefined
    | some x => return { s with
        numAvailableSlot := Function.update s.numAvailableSlot x.hthreadid s.message.uint32Val
        numPiledInstr := 0 }

/-- `if (num_piled_instr) send_instr_batch()`, in front of every other message -/
def flush (s : Pts) : Except Stop Pts :=
  if s.numPiledInstr ≠ 0 then s.sendInstrBatch else return s

/-- The instruction before in the pile is of another hthread; `none` where it cannot be read. -/
def mixed (s : Pts) (x : PtsInstr) : Option Bool :=
  if s.numPiledInstr = 0 then some false
  else (s.message.instr (s.numPiledInstr - 1)).map fun y => y.hthreadid ≠ x.hthreadid

def pile (s : Pts) (x : PtsInstr) : Pts :=
  let n := s.numPiledInstr + 1
  { s with
    message := { s.message.putInstr s.numPiledInstr x with type := .addInstruction, uint32Val := n }
    numPiledInstr := n }

def sendPile (s : Pts) (x : PtsInstr) : Except Stop (Pts × Bool) := do
  let s ← s.syncWithMcsim
  let slots := s.message.uint32Val
  return ({ s with
    numPiledInstr := 0
    numAvailableSlot := Function.update s.numAvailableSlot x.hthreadid slots }, slots ≤ 1)

/-- The value tells whether the simulation has to be resumed. -/
def addInstruction (s : Pts) (x : PtsInstr) (canBePiled : Bool) : Except Stop (Pts × Bool) :=
  if ¬ s.numPiledInstr < instrBatchSize then .error .batchFull
  else
    match s.mixed x with
    | none => .error .undefined
    | some true => .error .mixedHthreads
    | some false =>
      let s := s.pile x
      if canBePiled = false ∨ instrBatchSize ≤ s.numPiledInstr ∨
          s.numAvailableSlot x.hthreadid ≤ s.numPiledInstr then s.sendPile x
      else return (s, false)

def resumeSimulation (s : Pts) (mustSwitch killed : Bool) : Except Stop (Pts × Nat × Nat) := do
  let s ← s.flush
  let s ← { s with
    message := { s.message with type := .resumeSimulation, boolVal := mustSwitch, killed }
      }.syncWithMcsim
  return (s, s.message.uint32Val, s.message.uint64Val)

def setStackNSize (s : Pts) (hthread stack stacksize : Nat) : Except Stop Pts := do
  let s ← s.flush
  { s with
    message := { s.message with
      type := .setStackNSize, uint32Val := hthread, stackVal := stack
      stacksizeVal := stacksize } }.syncWithMcsim

def setActive (s : Pts) (hthread : Nat) (isActive : Bool) : Except Stop Pts := do
  let s ← s.flush
  { s with
    message := { s.message with
      type := .setActive, uint32Val := hthread, boolVal := isActive } }.syncWithMcsim

def getNumHthreads (s : Pts) : Except Stop (Pts × Nat) := do
  let s ← s.flush
  let s ← { s with message := { s.message with type := .getNumHthreads } }.syncWithMcsim
  return (s, s.message.uint32Val)

def getParamUint64 (s : Pts) (str : String) (defValue : Nat) : Except Stop (Pts × Nat) := do
  let s ← s.flush
  let s ← { s with
    message := { s.message with type := .getParamUint64, uint64Val := defValue }.putStr str
      }.syncWithMcsim
  return (s, s.message.uint64Val)

def getParamBool (s : Pts) (str : String) (defValue : Bool) : Except Stop (Pts × Bool) := do
  let s ← s.flush
  let s ← { s with
    message := { s.message with type := .getParamBool, boolVal := defValue }.putStr str
      }.syncWithMcsim
  return (s, s.message.boolVal)

def getCurrTime (s : Pts) : Except Stop (Pts × Nat) := do
  let s ← s.flush
  let s ← { s with message := { s.message with type := .getCurrTime } }.syncWithMcsim
  return (s, s.message.uint64Val)

end Pts
end McSim.Pthread
