import McSim.Component
import McSim.Lib.Multimap
import McSim.Lib.OrderedMap
import McSim.Lib.Agenda
import Mathlib.Logic.Function.Basic

/-! The memory controller.
A scan over the request window picks the request that a command is issued for. A bank has one action
time, which is when its last command takes effect; the data bus is a map from time slots. -/

namespace McSim

variable {C : Type}

inductive McBankAction
  | activate | read | write | precharge | idle
deriving DecidableEq, Repr

inductive McSchedulingPolicy
  | open | closed | pred
deriving DecidableEq, Repr

/-- Parameters in units of `process_interval`, and how addresses map to ranks, banks and pages. -/
structure McConfig (C : Type) where
  directory : C
  processInterval : Nat
  processInterval_pos : 0 < processInterval
  tRCD : Nat
  tRR : Nat
  tRP : Nat
  tCL : Nat
  tBL : Nat
  tBBL : Nat
  tRAS : Nat
  tWRBUB : Nat
  tRWBUB : Nat
  tRRBUB : Nat
  tWTR : Nat
  reqWindowSz : Nat
  mcToDirT : Nat
  rankInterleaveBaseBit : Nat
  bankInterleaveBaseBit : Nat
  pageSzBaseBit : Nat
  mcInterleaveBaseBit : Nat
  interleaveXorBaseBit : Nat
  numMcs : Nat
  numRanksPerMc : Nat
  numBanksPerRank : Nat
  parBs : Bool
  policy : McSchedulingPolicy
  refreshInterval : Nat
  fullDuplex : Bool
  isFixedLatency : Bool
  isFixedBwNLatency : Bool

namespace McConfig

/-- A product of two 32-bit numbers -/
def ticks (cfg : McConfig C) (n : Nat) : Nat := n * cfg.processInterval % 2 ^ 32

def getRankNum (cfg : McConfig C) (address : Nat) : Nat :=
  ((address >>> cfg.rankInterleaveBaseBit) ^^^ (address >>> cfg.interleaveXorBaseBit)) %
    cfg.numRanksPerMc

def getBankNum (cfg : McConfig C) (address : Nat) : Nat :=
  ((address >>> cfg.bankInterleaveBaseBit) ^^^ (address >>> cfg.interleaveXorBaseBit)) %
    cfg.numBanksPerRank

/-- `(base2, width2)`, `(base1, width1)` and `(base0, width0)`, in that order -/
def interleavers (cfg : McConfig C) : List (Nat × Nat) :=
  Multimap.insert cfg.mcInterleaveBaseBit cfg.numMcs
    (Multimap.insert cfg.bankInterleaveBaseBit cfg.numBanksPerRank
      (Multimap.insert cfg.rankInterleaveBaseBit cfg.numRanksPerMc []))

/-- `1 << base` is a shift of an `int`: bases above 30 are not meant. -/
def getPageNum (cfg : McConfig C) (address : Nat) : Nat :=
  cfg.interleavers.foldr (fun (base, width) page =>
    (((page >>> base) / width) <<< base) + page % (1 <<< base)) address >>> cfg.pageSzBaseBit

end McConfig

structure BankStatus where
  actionTime : Nat := 0
  pageNum : Nat := 0
  actionType : McBankAction := .idle
  lastActivateTime : Nat := 0

/-- `currBatchLast` is the index of the last request of the batch, or -1. -/
structure MemoryController (C : Type) where
  reqL : List (Lqe C) := []
  reqEvent : List (Nat × Lqe C) := []
  numReqs : Nat := 0
  numRead : Nat := 0
  numWrite : Nat := 0
  currBatchLast : Int := -1
  numReqFromATh : Nat → Int := fun _ => 0
  bankStatus : Nat → Nat → BankStatus := fun _ _ => {}
  lastActivateTime : Nat → Nat := fun _ => 0
  lastWriteTime : Nat → Nat := fun _ => 0
  lastReadTime : Nat × Nat := (0, 0)
  lastReadTimeRank : Nat → Nat := fun _ => 0
  dpStatus : List (Nat × McBankAction) := []
  rdDpStatus : List (Nat × McBankAction) := []
  wrDpStatus : List (Nat × McBankAction) := []
  lastProcessTime : Nat := 0

/-- What goes over the pins to a bank. With auto-precharge a column command closes the row. -/
inductive McCommand
  | activate (rank bank page : Nat)
  | precharge (rank bank : Nat)
  | column (rank bank page : Nat) (isWrite autoPrecharge : Bool)
deriving DecidableEq, Repr

structure McEffects (C : Type) where
  calls : List (Call C) := []
  deleted : List (Lqe C) := []
  wakeups : List Nat := []
  command : Option (McCommand × Lqe C) := none

namespace MemoryController

def isRead : EventType → Bool
  | .rdDirInfoReq | .rdDirInfoRep | .read | .eRd | .sRd => true
  | _ => false

def isWrite : EventType → Bool
  | .evict | .dirEvict | .sRdWr => true
  | _ => false

def isEvict : EventType → Bool
  | .evict | .dirEvict => true
  | _ => false

def reply (cfg : McConfig C) (t : Nat) (lqe : Lqe C) : Call C :=
  { callee := cfg.directory, kind := .rep, time := t + cfg.mcToDirT, lqe }

/-- `add_req_event` and `add_rep_event` -/
def addReqEvent (cfg : McConfig C) (s : MemoryController C) (time : Nat) (lqe : Lqe C) :
    MemoryController C × McEffects C :=
  let time := ceilByY time cfg.processInterval
  let s := { s with numReqs := s.numReqs + 1 }
  if cfg.isFixedLatency then
    if isEvict lqe.type then (s, { deleted := [lqe] }) else (s, { calls := [reply cfg time lqe] })
  else if cfg.isFixedBwNLatency then
    let lastProcessTime := if time = 0 ∨ s.lastProcessTime < time then time
      else s.lastProcessTime + cfg.processInterval
    let s := { s with lastProcessTime }
    if isEvict lqe.type then ({ s with numWrite := s.numWrite + 1 }, { deleted := [lqe] })
    else ({ s with numRead := s.numRead + 1 }, { calls := [reply cfg lastProcessTime lqe] })
  else ({ s with reqEvent := Multimap.insert time lqe s.reqEvent }, { wakeups := [time] })

def preProcessing (cfg : McConfig C) (t : Nat) (s : MemoryController C) : MemoryController C :=
  let new := (Multimap.front t s.reqEvent).map (·.2)
  let numReqFromATh := if cfg.parBs then
      new.foldl (fun num lqe => Function.update num lqe.thId (num lqe.thId + 1)) s.numReqFromATh
    else s.numReqFromATh
  let reqL := s.reqL ++ new
  let currBatchLast := if cfg.parBs ∧ s.currBatchLast = -1 ∧ reqL ≠ [] then
      (min reqL.length cfg.reqWindowSz : Int) - 1
    else s.currBatchLast
  { s with reqL, numReqFromATh, currBatchLast, reqEvent := s.reqEvent.dropWhile (fun e => e.1 = t) }

/-- The candidate of a scan (`c_idx`), and the data paths without their past -/
structure Scan where
  candidate : Option Nat := none
  pageHit : Bool := false
  numReqFromTheSameThread : Int
  dpStatus : List (Nat × McBankAction)
  rdDpStatus : List (Nat × McBankAction)
  wrDpStatus : List (Nat × McBankAction)

def bank (cfg : McConfig C) (s : MemoryController C) (lqe : Lqe C) : BankStatus :=
  s.bankStatus (cfg.getRankNum lqe.address) (cfg.getBankNum lqe.address)

def sub64 (a b : Nat) : Nat := if b ≤ a then a - b else a + 2 ^ 64 - b

/-- A row command for a request: a row hit goes first, then a thread with fewer requests. -/
def offer (cfg : McConfig C) (t : Nat) (s : MemoryController C) (lqe : Lqe C) (i : Nat) (c : Scan) :
    Scan :=
  let num := s.numReqFromATh lqe.thId
  if c.pageHit = false ∧ s.lastActivateTime (cfg.getRankNum lqe.address) + cfg.ticks cfg.tRR ≤ t ∧
      (num < c.numReqFromTheSameThread ∨ num = c.numReqFromTheSameThread ∧ c.candidate = none) then
    { c with candidate := some i, numReqFromTheSameThread := num }
  else c

/-- `need_precharge`: no other request of the window, or of the batch, wants the open row. -/
def needPrecharge (cfg : McConfig C) (s : MemoryController C) (lqe : Lqe C) (i : Nat) : Bool :=
  (s.reqL.zipIdx.take cfg.reqWindowSz).all fun (other, j) =>
    (i ≤ s.currBatchLast ∧ s.currBatchLast < j) ∨ j = i ∨
      ¬ (cfg.getRankNum lqe.address = cfg.getRankNum other.address ∧
        cfg.getBankNum lqe.address = cfg.getBankNum other.address ∧
        (s.bank cfg lqe).pageNum = cfg.getPageNum other.address)

def pathFree (cfg : McConfig C) (t : Nat) (path : List (Nat × McBankAction)) : Bool :=
  OrderedMap.clear (t + cfg.ticks cfg.tCL) (t + cfg.ticks (cfg.tCL + cfg.tBL)) path

/-- A burst of the other kind ends less than `bubble` before this one would begin. -/
def turnsAround (cfg : McConfig C) (t bubble : Nat) (action : McBankAction)
    (path : List (Nat × McBankAction)) : Bool :=
  cfg.fullDuplex = false ∧
    OrderedMap.meets (sub64 (t + cfg.ticks cfg.tCL) (cfg.ticks bubble)) (t + cfg.ticks cfg.tCL)
      (· = action) path

def readMeets (cfg : McConfig C) (t : Nat) (s : MemoryController C) (rank : Nat)
    (dp rdDp : List (Nat × McBankAction)) : Bool :=
  pathFree cfg t (if cfg.fullDuplex then rdDp else dp) ∧
    turnsAround cfg t cfg.tWRBUB .write dp = false ∧
    ¬ (0 < cfg.tWTR ∧ t < s.lastWriteTime rank + cfg.ticks cfg.tWTR) ∧
    ¬ (s.lastReadTime.1 ≠ rank ∧ t < cfg.ticks cfg.tRRBUB + s.lastReadTime.2)

def writeMeets (cfg : McConfig C) (t : Nat) (s : MemoryController C) (rank : Nat)
    (dp wrDp : List (Nat × McBankAction)) : Bool :=
  pathFree cfg t (if cfg.fullDuplex then wrDp else dp) ∧
    turnsAround cfg t cfg.tRWBUB .read dp = false ∧
    ¬ t < s.lastReadTimeRank rank + cfg.ticks cfg.tRWBUB

/-- A row hit that meets the constraints goes before row commands. -/
def offerHit (s : MemoryController C) (lqe : Lqe C) (i : Nat) (met : Bool) (c : Scan) : Scan :=
  let num := s.numReqFromATh lqe.thId
  if met ∧ (c.pageHit = false ∨ num < c.numReqFromTheSameThread) then
    { c with candidate := some i, pageHit := true, numReqFromTheSameThread := num }
  else c

def considerHit (cfg : McConfig C) (t : Nat) (s : MemoryController C) (lqe : Lqe C) (i : Nat)
    (c : Scan) : Except Abort Scan :=
  let rank := cfg.getRankNum lqe.address
  let c := { c with dpStatus := OrderedMap.lowerBound t c.dpStatus }
  if isRead lqe.type then
    let c := { c with rdDpStatus := OrderedMap.lowerBound t c.rdDpStatus }
    return offerHit s lqe i (readMeets cfg t s rank c.dpStatus c.rdDpStatus) c
  else if isWrite lqe.type then
    let c := { c with wrDpStatus := OrderedMap.lowerBound t c.wrDpStatus }
    return offerHit s lqe i (writeMeets cfg t s rank c.dpStatus c.wrDpStatus) c
  else .error .fatal

def considerOpen (cfg : McConfig C) (t : Nat) (s : MemoryController C) (lqe : Lqe C) (i : Nat)
    (c : Scan) : Except Abort Scan :=
  let bank := s.bank cfg lqe
  if t < bank.actionTime + cfg.ticks cfg.tBBL then return c
  else if bank.pageNum ≠ cfg.getPageNum lqe.address then
    if cfg.policy = .open ∧ needPrecharge cfg s lqe i then return offer cfg t s lqe i c
    else return c
  else considerHit cfg t s lqe i c

def consider (cfg : McConfig C) (t : Nat) (s : MemoryController C) (lqe : Lqe C) (i : Nat)
    (c : Scan) : Except Abort Scan :=
  let bank := s.bank cfg lqe
  if t < bank.actionTime then return c
  else
    match bank.actionType with
    | .precharge =>
      if t < bank.actionTime + cfg.ticks cfg.tRP then return c else return offer cfg t s lqe i c
    | .idle => return offer cfg t s lqe i c
    | .activate =>
      if t < bank.actionTime + cfg.ticks cfg.tRCD then return c else considerOpen cfg t s lqe i c
    | .read | .write => considerOpen cfg t s lqe i c

/-- The scan stops behind the batch if it has a candidate, and at the end of the window. -/
def scan (cfg : McConfig C) (t : Nat) (s : MemoryController C) :
    List (Lqe C) → Nat → Scan → Except Abort Scan
  | [], _, c => return c
  | lqe :: rest, i, c =>
    if (c.candidate.isSome ∧ i ≠ 0 ∧ s.currBatchLast < i) ∨ cfg.reqWindowSz ≤ i then return c
    else do
      let c ← consider cfg t s lqe i c
      scan cfg t s rest (i + 1) c

def setBank (s : MemoryController C) (rank bank : Nat) (b : BankStatus) : MemoryController C :=
  { s with bankStatus := Function.update s.bankStatus rank (Function.update (s.bankStatus rank) bank b) }

def activateRow (cfg : McConfig C) (t : Nat) (s : MemoryController C) (lqe : Lqe C) :
    MemoryController C × McEffects C :=
  let rank := cfg.getRankNum lqe.address
  let bank := cfg.getBankNum lqe.address
  let page := cfg.getPageNum lqe.address
  ({ s.setBank rank bank
      { actionTime := t, pageNum := page, actionType := .activate, lastActivateTime := t } with
      lastActivateTime := Function.update s.lastActivateTime rank t },
    { command := some (.activate rank bank page, lqe) })

def closedAt (cfg : McConfig C) (t : Nat) (b : BankStatus) : Nat :=
  cfg.ticks cfg.tRP + max t (cfg.ticks cfg.tRAS + b.lastActivateTime)

def prechargeRow (cfg : McConfig C) (t : Nat) (s : MemoryController C) (lqe : Lqe C) :
    MemoryController C × McEffects C :=
  let rank := cfg.getRankNum lqe.address
  let bank := cfg.getBankNum lqe.address
  let b := s.bank cfg lqe
  (s.setBank rank bank { b with actionTime := closedAt cfg t b, actionType := .precharge },
    { command := some (.precharge rank bank, lqe) })

def reserve (cfg : McConfig C) (t : Nat) (action : McBankAction)
    (path : List (Nat × McBankAction)) :
    List (Nat × McBankAction) :=
  (List.range cfg.tBL).foldl
    (fun path j => OrderedMap.insert (t + cfg.ticks (cfg.tCL + j)) action path)
    path

def readBurst (cfg : McConfig C) (t : Nat) (s : MemoryController C) (rank : Nat) :
    MemoryController C :=
  { s with
    numRead := s.numRead + 1
    dpStatus := reserve cfg t .read s.dpStatus
    rdDpStatus := reserve cfg t .read s.rdDpStatus
    lastReadTime := (rank, t)
    lastReadTimeRank := Function.update s.lastReadTimeRank rank
      (t + cfg.ticks (cfg.tCL + cfg.tBL)) }

def writeBurst (cfg : McConfig C) (t : Nat) (s : MemoryController C) (rank : Nat) :
    MemoryController C :=
  { s with
    numWrite := s.numWrite + 1
    dpStatus := reserve cfg t .write s.dpStatus
    wrDpStatus := reserve cfg t .write s.wrDpStatus
    lastWriteTime := Function.update s.lastWriteTime rank (t + cfg.ticks (cfg.tCL + cfg.tBL)) }

/-- Another request behind this one in the window wants the row. -/
def wantedLater (cfg : McConfig C) (s : MemoryController C) (lqe : Lqe C) (i : Nat) : Bool :=
  ((s.reqL.take cfg.reqWindowSz).drop (i + 1)).any fun other =>
    cfg.getRankNum lqe.address = cfg.getRankNum other.address ∧
      cfg.getBankNum lqe.address = cfg.getBankNum other.address ∧
      cfg.getPageNum lqe.address = cfg.getPageNum other.address

/-- The bank after a column command. Unless rows are kept open, it is closed, or stays open for a
request that wants the row; its action time is then without `tRP`. -/
def bankAfter (cfg : McConfig C) (t : Nat) (s : MemoryController C) (lqe : Lqe C) (i : Nat)
    (action : McBankAction) : BankStatus :=
  let b := s.bank cfg lqe
  if cfg.policy = .open then { b with actionTime := t, actionType := action }
  else if wantedLater cfg s lqe i then
    { b with actionTime := closedAt cfg t b - cfg.ticks cfg.tRP, actionType := action }
  else { b with actionTime := closedAt cfg t b, actionType := .precharge }

def batchAfter (cfg : McConfig C) (s : MemoryController C) (i : Nat) : Int :=
  if cfg.parBs = false then s.currBatchLast
  else if s.currBatchLast = i then
    if i = 0 then min ((cfg.reqWindowSz : Int) - 1) ((s.reqL.length : Int) - 2)
    else s.currBatchLast - 1
  else if i < s.currBatchLast then s.currBatchLast - 1
  else s.currBatchLast

def accessColumn (cfg : McConfig C) (t : Nat) (s : MemoryController C) (lqe : Lqe C) (i : Nat) :
    Except Abort (MemoryController C × McEffects C) :=
  let rank := cfg.getRankNum lqe.address
  let bank := cfg.getBankNum lqe.address
  let page := cfg.getPageNum lqe.address
  let leave := fun (s' : MemoryController C) (action : McBankAction) (effects : McEffects C) =>
    let b := bankAfter cfg t s lqe i action
    let numReqFromATh := if cfg.parBs then
        Function.update s.numReqFromATh lqe.thId (s.numReqFromATh lqe.thId - 1)
      else s.numReqFromATh
    let command := McCommand.column rank bank page (action = .write) (b.actionType = .precharge)
    ({ s'.setBank rank bank b with
        numReqFromATh, currBatchLast := batchAfter cfg s i, reqL := s.reqL.eraseIdx i },
      { effects with command := some (command, lqe) })
  if isRead lqe.type then
    return leave (readBurst cfg t s rank) .read { calls := [reply cfg t lqe] }
  else if lqe.type = .sRdWr then
    return leave (writeBurst cfg t s rank) .write
      { calls := [reply cfg t { lqe with type := .sRd }] }
  else if isWrite lqe.type then
    return leave (writeBurst cfg t s rank) .write { deleted := [lqe] }
  else .error .fatal

def issue (cfg : McConfig C) (t : Nat) (s : MemoryController C) (lqe : Lqe C) (i : Nat) :
    Except Abort (MemoryController C × McEffects C) :=
  let b := s.bank cfg lqe
  match b.actionType with
  | .precharge | .idle => return activateRow cfg t s lqe
  | .activate | .read | .write =>
    if b.pageNum ≠ cfg.getPageNum lqe.address then
      if cfg.policy = .open then return prechargeRow cfg t s lqe else return (s, {})
    else accessColumn cfg t s lqe i

def startScan (s : MemoryController C) : Scan where
  numReqFromTheSameThread := s.reqL.length + 1
  dpStatus := s.dpStatus
  rdDpStatus := s.rdDpStatus
  wrDpStatus := s.wrDpStatus

/-- The scan erases what is past from the data paths. -/
def afterScan (s : MemoryController C) (c : Scan) : MemoryController C :=
  { s with dpStatus := c.dpStatus, rdDpStatus := c.rdDpStatus, wrDpStatus := c.wrDpStatus }

def issueFor (cfg : McConfig C) (t : Nat) (s : MemoryController C) :
    Option Nat → Except Abort (MemoryController C × McEffects C)
  | none => return (s, {})
  | some i =>
    match s.reqL[i]? with
    | none => .error .undefined
    | some lqe => issue cfg t s lqe i

def processEvent (cfg : McConfig C) (t : Nat) (s : MemoryController C) :
    Except Abort (MemoryController C × McEffects C) := do
  let s := preProcessing cfg t { s with lastProcessTime := t }
  let c ← scan cfg t s s.reqL 0 s.startScan
  let (s, effects) ← issueFor cfg t (s.afterScan c) c.candidate
  return (s, { effects with wakeups := if s.reqL = [] then [] else [t + cfg.processInterval] })

end MemoryController

/-- A controller, its ticks in the global queue, and what has happened: the requests that came, and
what it did for them. -/
structure McSystem (C : Type) where
  mc : MemoryController C := {}
  agenda : Agenda
  added : List (Lqe C) := []
  calls : List (Call C) := []
  deleted : List (Lqe C) := []
  log : List (Nat × McCommand × Lqe C) := []

/-- What happens to a controller. Time goes on when other components are dispatched. -/
inductive McEvent (C : Type)
  | add (time : Nat) (lqe : Lqe C)
  | advance (t : Nat)
  | process (t : Nat)

namespace McSystem

/-- A refresh interval is the first tick. -/
def init (cfg : McConfig C) : McSystem C :=
  { agenda := { events := if cfg.refreshInterval = 0 then ∅ else {cfg.refreshInterval} } }

/-- Requests come for times that are not past, and the global queue passes no tick over. -/
def Timely (a : Agenda) : McEvent C → Prop
  | .add time _ => ∀ n ∈ a.now, n ≤ time
  | .advance t => a.Next t
  | .process t => t ∈ a.events ∧ a.Next t

def record (s : McSystem C) (t : Nat) (mc : MemoryController C) (effects : McEffects C) :
    McSystem C :=
  { s with
    mc
    agenda := effects.wakeups.foldl Agenda.add s.agenda
    calls := s.calls ++ effects.calls
    deleted := s.deleted ++ effects.deleted
    log := s.log ++ (effects.command.map fun command => (t, command)).toList }

def step (cfg : McConfig C) (s : McSystem C) : McEvent C → Except Abort (McSystem C)
  | .add time lqe =>
    let (mc, effects) := s.mc.addReqEvent cfg time lqe
    return { s with added := s.added ++ [lqe] }.record time mc effects
  | .advance t => return { s with agenda := s.agenda.advance t }
  | .process t => do
    let (mc, effects) ← s.mc.processEvent cfg t
    return { s with agenda := s.agenda.take t }.record t mc effects

inductive Run (cfg : McConfig C) : McSystem C → Prop
  | init : Run cfg (init cfg)
  | step {s s'} (e : McEvent C) : Run cfg s → Timely s.agenda e → step cfg s e = .ok s' → Run cfg s'

instance (a : Agenda) : (e : McEvent C) → Decidable (Timely a e)
  | .add time _ => inferInstanceAs (Decidable (∀ n ∈ a.now, n ≤ time))
  | .advance t => inferInstanceAs (Decidable ((∀ n ∈ a.now, n ≤ t) ∧ ∀ u ∈ a.events, t ≤ u))
  | .process t =>
    inferInstanceAs (Decidable (t ∈ a.events ∧ (∀ n ∈ a.now, n ≤ t) ∧ ∀ u ∈ a.events, t ≤ u))

def follow (cfg : McConfig C) (s : McSystem C) : List (McEvent C) → Except Abort (McSystem C)
  | [] => return s
  | e :: events => do
    let s' ← if Timely s.agenda e then step cfg s e else .error .undefined
    s'.follow cfg events

theorem Run.follow {cfg : McConfig C} {s s' : McSystem C} {events : List (McEvent C)}
    (run : Run cfg s) (h : s.follow cfg events = .ok s') : Run cfg s' := by
  induction events generalizing s with
  | nil =>
    cases h
    exact run
  | cons e events ih =>
    unfold McSystem.follow at h
    split at h
    · rename_i timely
      cases hs : McSystem.step cfg s e with
      | error a => simp [hs, bind, Except.bind] at h
      | ok s₁ =>
        rw [hs] at h
        exact ih (run.step e timely hs) h
    · simp [bind, Except.bind] at h

end McSystem
end McSim
