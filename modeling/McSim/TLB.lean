import McSim.Component
import McSim.Lib.Multimap
import McSim.Lib.OrderedMap
import McSim.Lib.Agenda

/-! The L1 TLBs.
A TLB is fully associative: `entries` has the time of the last use of every page it holds, and `LRU`
has the pages by that time. An iterator in `LRU` is given by the page of the entry it is for. -/

namespace McSim

open OrderedMap

variable {C : Type}

/-- `instructions` tells `ct_tlbl1i` from `ct_tlbl1d`. -/
structure TlbConfig where
  instructions : Bool
  numEntries : Nat
  l1ToLsuT : Nat
  pageSzLog2 : Nat
  missPenalty : Nat
  speedup : Nat
  processInterval : Nat
  processInterval_pos : 0 < processInterval

structure TlbL1 (C : Type) where
  reqEvent : List (Nat × Lqe C) := []
  reqQ : List (Lqe C) := []
  numAccess : Nat := 0
  numMiss : Nat := 0
  entries : List (Nat × Nat) := []
  lru : List (Nat × Nat) := []

/-- A request that is served: when, and whether its page was found -/
structure Service (C : Type) where
  time : Nat
  lqe : Lqe C
  hit : Bool

structure TlbEffects (C : Type) where
  calls : List (Call C) := []
  served : List (Service C) := []
  wakeups : List Nat := []

def TlbConfig.page (cfg : TlbConfig) (lqe : Lqe C) : Nat := lqe.address >>> cfg.pageSzLog2

def Service.answer (cfg : TlbConfig) (e : Service C) (comp : C) : Call C :=
  { callee := comp, kind := if cfg.instructions then .req else .rep
    time := e.time + cfg.l1ToLsuT + (if e.hit then 0 else cfg.missPenalty), lqe := e.lqe }

namespace TlbL1

def addReqEvent (s : TlbL1 C) (time : Nat) (lqe : Lqe C) : TlbL1 C × TlbEffects C :=
  ({ s with reqEvent := Multimap.insert time lqe s.reqEvent }, { wakeups := [time] })

/-- The page of the first record of `LRU` goes, if its entry is there. -/
def evict (s : TlbL1 C) : Except Abort (TlbL1 C) :=
  match s.lru with
  | [] => .error .undefined
  | (_, page) :: lru =>
    if find page s.entries = none then .error .undefined
    else return { s with entries := erase page s.entries, lru }

def enter (t page : Nat) (s : TlbL1 C) : TlbL1 C :=
  { s with
    numMiss := s.numMiss + 1, entries := insert page t s.entries, lru := insert t page s.lru }

def renew (t page last : Nat) (s : TlbL1 C) : TlbL1 C :=
  { s with entries := assign page t s.entries, lru := insert t page (erase last s.lru) }

/-- A page is used; the result tells if it was there. -/
def access (cfg : TlbConfig) (t page : Nat) (s : TlbL1 C) : Except Abort (TlbL1 C × Bool) :=
  match find page s.entries with
  | none => do
    let s ← if cfg.numEntries ≤ s.lru.length then s.evict else pure s
    return (s.enter t page, false)
  | some last => return (s.renew t page last, true)

/-- The requests at the head of the queue, so many at most -/
def serve (cfg : TlbConfig) (t : Nat) : Nat → TlbL1 C → Except Abort (TlbL1 C × TlbEffects C)
  | 0, s => return (s, {})
  | k + 1, s =>
    match s.reqQ with
    | [] => return (s, {})
    | lqe :: reqQ => do
      let comp ← lqe.top
      let (s, hit) ← access cfg t (cfg.page lqe) { s with reqQ, numAccess := s.numAccess + 1 }
      let service : Service C := { time := t, lqe, hit }
      let (s, effects) ← serve cfg t k s
      return (s, { effects with
        calls := service.answer cfg comp :: effects.calls, served := service :: effects.served })

def enqueue (t : Nat) (s : TlbL1 C) : TlbL1 C :=
  { s with
    reqQ := s.reqQ ++ (Multimap.front t s.reqEvent).map (·.2)
    reqEvent := Multimap.erase t s.reqEvent }

def processEvent (cfg : TlbConfig) (t : Nat) (s : TlbL1 C) :
    Except Abort (TlbL1 C × TlbEffects C) := do
  let (s, effects) ← serve cfg t cfg.speedup (s.enqueue t)
  return (s, { effects with wakeups := if s.reqQ = [] then [] else [t + cfg.processInterval] })

end TlbL1

/-- A TLB, its ticks in the global queue, and what has happened: the requests that came, those
served and the answers, and the ticks at which it was processed -/
structure TlbSystem (C : Type) where
  tlb : TlbL1 C := {}
  agenda : Agenda := {}
  added : List (Nat × Lqe C) := []
  served : List (Service C) := []
  calls : List (Call C) := []
  ticks : List Nat := []

inductive TlbEvent (C : Type)
  | add (time : Nat) (lqe : Lqe C)
  | advance (t : Nat)
  | process (t : Nat)

namespace TlbSystem

/-- Requests come from a component and for times that are not past, and the global queue passes no
tick over. -/
def Timely (a : Agenda) : TlbEvent C → Prop
  | .add time lqe => (∀ n ∈ a.now, n ≤ time) ∧ lqe.path ≠ []
  | .advance t => a.Next t
  | .process t => t ∈ a.events ∧ a.Next t

def record (s : TlbSystem C) (tlb : TlbL1 C) (effects : TlbEffects C) : TlbSystem C :=
  { s with
    tlb
    agenda := effects.wakeups.foldl Agenda.add s.agenda
    served := s.served ++ effects.served
    calls := s.calls ++ effects.calls }

def step (cfg : TlbConfig) (s : TlbSystem C) : TlbEvent C → Except Abort (TlbSystem C)
  | .add time lqe =>
    let (tlb, effects) := s.tlb.addReqEvent time lqe
    return { s with added := s.added ++ [(time, lqe)] }.record tlb effects
  | .advance t => return { s with agenda := s.agenda.advance t }
  | .process t => do
    let (tlb, effects) ← s.tlb.processEvent cfg t
    return { s with agenda := s.agenda.take t, ticks := s.ticks ++ [t] }.record tlb effects

instance (a : Agenda) : (e : TlbEvent C) → Decidable (Timely a e)
  | .add time lqe => decidable_of_iff ((∀ n ∈ a.now, n ≤ time) ∧ ¬ lqe.path.isEmpty = true)
      (and_congr_right fun _ => not_congr List.isEmpty_iff)
  | .advance t => inferInstanceAs (Decidable ((∀ n ∈ a.now, n ≤ t) ∧ ∀ u ∈ a.events, t ≤ u))
  | .process t =>
    inferInstanceAs (Decidable (t ∈ a.events ∧ (∀ n ∈ a.now, n ≤ t) ∧ ∀ u ∈ a.events, t ≤ u))

def follow (cfg : TlbConfig) (s : TlbSystem C) : List (TlbEvent C) → Except Abort (TlbSystem C)
  | [] => return s
  | e :: events => do
    let s' ← if Timely s.agenda e then step cfg s e else .error .undefined
    s'.follow cfg events

end TlbSystem
end McSim
