import McSim.Component
import McSim.Lib.Multimap
import Mathlib.Logic.Function.Basic
import Mathlib.Order.Lattice

/-! The crossbar: event maps, one priority queue for each port, and the arbitration of
`process_event`. The destination of an element is fixed when it enters its port's queue.
Two flits of one port may leave in a call, the second one past a blocked head. -/

namespace McSim

inductive NocPriority
  | rep | crq | req
deriving DecidableEq, Repr

namespace NocPriority

def rank : NocPriority → Nat
  | rep => 0
  | crq => 1
  | req => 2

theorem rank_injective : Function.Injective rank := by
  intro a b h
  cases a <;> cases b <;> first | rfl | cases h

instance : LinearOrder NocPriority := LinearOrder.lift' rank rank_injective

end NocPriority

variable {C : Type}

/-- `num_ports` is an unsigned 32-bit number, and `process_interval` is a divisor. -/
structure CrossbarConfig (C : Type) where
  processInterval : Nat
  interval_pos : 0 < processInterval
  numPorts : Nat
  ports_lt : numPorts < 2 ^ 32
  xbarToDirT : Nat
  num : C → Nat
  directory : Nat → C
  whichMc : Nat → Nat

/-- `queues[i]` holds `(priority, (event, to))`, the event maps `(time, (event, from))`. -/
structure Crossbar (C : Type) where
  reqEvents : List (Nat × Lqe C × C) := []
  crqEvents : List (Nat × Lqe C × C) := []
  repEvents : List (Nat × Lqe C × C) := []
  queues : Nat → List (NocPriority × Lqe C × C) := fun _ => []
  clockwise : Bool := true
  topPriority : Nat := 0
  numReq : Nat := 0
  numRep : Nat := 0
  numCrq : Nat := 0
  numFlits : Nat := 0
  numDataTransfers : Nat := 0

/-- An element on its way through a port, with the destination it was queued for. -/
structure Flit (C : Type) where
  port : Nat
  cls : NocPriority
  lqe : Lqe C
  dest : C
deriving DecidableEq

namespace Crossbar

def align (cfg : CrossbarConfig C) (t : Nat) : Nat :=
  if t % cfg.processInterval ≠ 0 then t + cfg.processInterval - t % cfg.processInterval else t

def events (x : Crossbar C) : NocPriority → List (Nat × Lqe C × C)
  | .rep => x.repEvents
  | .crq => x.crqEvents
  | .req => x.reqEvents

def setEvents (x : Crossbar C) (cls : NocPriority) (m : List (Nat × Lqe C × C)) : Crossbar C :=
  match cls with
  | .rep => { x with repEvents := m }
  | .crq => { x with crqEvents := m }
  | .req => { x with reqEvents := m }

def count (x : Crossbar C) : NocPriority → Crossbar C
  | .rep => { x with numRep := x.numRep + 1 }
  | .crq => { x with numCrq := x.numCrq + 1 }
  | .req => { x with numReq := x.numReq + 1 }

/-- The single-flit form shared by `add_req_event`, `add_crq_event` and `add_rep_event`. -/
def addEvent (cfg : CrossbarConfig C) (cls : NocPriority) (x : Crossbar C) (t : Nat)
    (lqe : Lqe C) (source : C) : Crossbar C :=
  let x := x.count cls
  let x := { x with numFlits := x.numFlits + 1 }
  x.setEvents cls (Multimap.insert (align cfg t) (lqe, source) (x.events cls))

def addReqEvent (cfg : CrossbarConfig C) := addEvent cfg .req
def addCrqEvent (cfg : CrossbarConfig C) := addEvent cfg .crq
def addRepEvent (cfg : CrossbarConfig C) := addEvent cfg .rep

def dummyOf (lqe : Lqe C) : Lqe C :=
  { path := lqe.path, type := lqe.type, address := lqe.address, thId := lqe.thId, dummy := true }

def addDummies (cfg : CrossbarConfig C) (cls : NocPriority) (t : Nat) (lqe : Lqe C) (source : C) :
    Nat → Crossbar C → Crossbar C
  | 0, x => x
  | n + 1, x =>
    addDummies cfg cls t lqe source n ((addEvent cfg cls x t (dummyOf lqe) source).count cls)

/-- The multi-flit form; `num_flits - 1` is an unsigned 32-bit difference. -/
def addFlits (cfg : CrossbarConfig C) (cls : NocPriority) (x : Crossbar C) (t : Nat)
    (lqe : Lqe C) (numFlits : Nat) (source : C) : Crossbar C :=
  let x := addDummies cfg cls t lqe source ((numFlits + 2 ^ 32 - 1) % 2 ^ 32) x
  let x := addEvent cfg cls x t lqe source
  { x with numDataTransfers := x.numDataTransfers + 1 }

def addCrqFlits (cfg : CrossbarConfig C) := addFlits cfg .crq
def addRepFlits (cfg : CrossbarConfig C) := addFlits cfg .rep

def toDirectory : EventType → Bool
  | .evict | .invalidate | .invalidateNd | .nop | .eToI | .eToM => true
  | _ => false

/-- Where an element goes; `none` where the source reads the top of an empty stack. -/
def destination (cfg : CrossbarConfig C) (cls : NocPriority) (lqe : Lqe C) : Option C :=
  match cls with
  | .rep => if toDirectory lqe.type then some (cfg.directory (cfg.whichMc lqe.address))
      else lqe.path.head?
  | .crq => lqe.path.head?
  | .req => some (cfg.directory (cfg.whichMc lqe.address))

/-- For a coherence request the top of the stack names the target and is popped. -/
def carried : NocPriority → Lqe C → Lqe C
  | .crq, lqe => { lqe with path := lqe.path.tail }
  | _, lqe => lqe

abbrev Queues (C : Type) := Nat → List (NocPriority × Lqe C × C)

def push (qs : Queues C) (f : Flit C) : Queues C :=
  Function.update qs f.port (Multimap.insert f.cls (f.lqe, f.dest) (qs f.port))

/-- The flit made of an event; the port and `already_sent` index must exist. -/
def flit (cfg : CrossbarConfig C) (cls : NocPriority) (e : Lqe C × C) : Except Abort (Flit C) :=
  match destination cfg cls e.1 with
  | none => .error .undefined
  | some d =>
    if cfg.num e.2 < cfg.numPorts ∧ cfg.num d < cfg.numPorts then
      .ok ⟨cfg.num e.2, cls, carried cls e.1, d⟩
    else .error .undefined

def flits (cfg : CrossbarConfig C) (cls : NocPriority) :
    List (Nat × Lqe C × C) → Except Abort (List (Flit C))
  | [] => .ok []
  | e :: m =>
    match flit cfg cls e.2, flits cfg cls m with
    | .ok f, .ok fs => .ok (f :: fs)
    | _, _ => .error .undefined

structure Sending (C : Type) where
  queues : Queues C
  sent : Nat → Bool
  served : List (Flit C)

def send (cfg : CrossbarConfig C) (idx : Nat) (e : NocPriority × Lqe C × C)
    (rest : List (NocPriority × Lqe C × C)) (s : Sending C) : Sending C where
  queues := Function.update s.queues idx rest
  sent := Function.update s.sent (cfg.num e.2.2) true
  served := s.served ++ [⟨idx, e.1, e.2.1, e.2.2⟩]

/-- The second look at a port: behind `kept`, the first of `rest` may leave. -/
def trySecond (cfg : CrossbarConfig C) (idx : Nat) (kept rest : List (NocPriority × Lqe C × C))
    (s : Sending C) : Sending C :=
  match rest with
  | [] => s
  | e :: rest => if s.sent (cfg.num e.2.2) = false then send cfg idx e (kept ++ rest) s else s

def servePort (cfg : CrossbarConfig C) (s : Sending C) (idx : Nat) : Sending C :=
  match s.queues idx with
  | [] => s
  | e :: rest =>
    if s.sent (cfg.num e.2.2) = false then trySecond cfg idx [] rest (send cfg idx e rest s)
    else trySecond cfg idx [e] rest s

/-- The port looked at in round `i`, in unsigned 32-bit arithmetic. -/
def portIdx (cfg : CrossbarConfig C) (x : Crossbar C) (i : Nat) : Nat :=
  (x.topPriority + cfg.numPorts + (if x.clockwise then i else 2 ^ 32 - i)) % 2 ^ 32 % cfg.numPorts

structure Result (C : Type) where
  xbar : Crossbar C
  queued : List (Flit C)
  served : List (Flit C)
  wakeup : Option Nat

/-- A call on a neighbour: `add_req_event` for the request class, else `add_rep_event`. -/
structure Delivery (C : Type) where
  time : Nat
  dest : C
  isReq : Bool
  lqe : Lqe C

/-- Dummy flits are deleted, everything else is handed to its destination. -/
def Flit.delivery (cfg : CrossbarConfig C) (t : Nat) (f : Flit C) : Option (Delivery C) :=
  if f.lqe.dummy then none else some ⟨t + cfg.xbarToDirT, f.dest, f.cls = .req, f.lqe⟩

def anyQueued (cfg : CrossbarConfig C) (qs : Queues C) : Bool :=
  (List.range cfg.numPorts).any fun i => !(qs i).isEmpty

def processEvent (cfg : CrossbarConfig C) (x : Crossbar C) (t : Nat) :
    Except Abort (Result C) := do
  let rep ← flits cfg .rep (Multimap.front t x.repEvents)
  let crq ← flits cfg .crq (Multimap.front t x.crqEvents)
  let req ← flits cfg .req (Multimap.front t x.reqEvents)
  let queued := rep ++ crq ++ req
  let order := (List.range cfg.numPorts).map (portIdx cfg x)
  let s := order.foldl (servePort cfg) ⟨queued.foldl push x.queues, fun _ => false, []⟩
  return {
    xbar := { x with
      reqEvents := Multimap.erase t x.reqEvents
      crqEvents := Multimap.erase t x.crqEvents
      repEvents := Multimap.erase t x.repEvents
      queues := s.queues
      clockwise := !x.clockwise
      topPriority := if x.clockwise then x.topPriority
        else (x.topPriority + 1) % cfg.numPorts }
    queued
    served := s.served
    wakeup := if anyQueued cfg s.queues then some (t + cfg.processInterval) else none }

end Crossbar
end McSim
