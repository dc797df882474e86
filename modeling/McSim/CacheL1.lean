import McSim.Component
import McSim.Lib.Multimap
import Mathlib.Logic.Function.Basic

/-! The first-level caches.
A reply is for a line of the second level, which covers one or more lines here: `process_event`
walks over them, and what it has done for one carries over to the next. -/

namespace McSim

variable {C : Type}

/-- `l1_tag_pair`. `way` is ghost: which entry of its set this is. -/
structure L1Entry where
  way : Nat := 0
  tag : Nat := 0
  state : CoherenceState := .invalid
deriving DecidableEq, Repr

structure PrefetchEntry where
  addr : Nat := 0
  hit : Bool := false
deriving DecidableEq, Repr

structure L1Stats where
  numRdAccess : Nat := 0
  numRdMiss : Nat := 0
  numWrAccess : Nat := 0
  numWrMiss : Nat := 0
  numEvCoherency : Nat := 0
  numEvCapacity : Nat := 0
  numCoherencyAccess : Nat := 0
  numUpgradeReq : Nat := 0
  numBypass : Nat := 0
  numNack : Nat := 0
  numPrefetchRequests : Nat := 0
  numPrefetchHits : Nat := 0
deriving DecidableEq, Repr

/-- `isData` tells a data cache from an instruction cache. The numbers of sets, banks and prefetch
entries are divisors. -/
structure L1Config (C : Type) where
  self : C
  isData : Bool
  cachel2 : C
  setLsb : Nat
  l2SetLsb : Nat
  setLsb_le : setLsb ≤ l2SetLsb
  numSets : Nat
  numSets_pos : 0 < numSets
  numBanks : Nat
  numBanks_pos : 0 < numBanks
  numPreEntries : Nat
  numPreEntries_pos : 0 < numPreEntries
  l1ToLsuT : Nat
  l1ToL2T : Nat
  alwaysHit : Bool
  usePrefetch : Bool
  processInterval : Nat

namespace L1Config

def setOf (cfg : L1Config C) (address : Nat) : Nat := (address >>> cfg.setLsb) % cfg.numSets

def tagOf (cfg : L1Config C) (address : Nat) : Nat := (address >>> cfg.setLsb) / cfg.numSets

def addressOf (cfg : L1Config C) (set tag : Nat) : Nat := (tag * cfg.numSets + set) <<< cfg.setLsb

def numSubLines (cfg : L1Config C) : Nat := 1 <<< (cfg.l2SetLsb - cfg.setLsb)

/-- The lines are visited in a circle, from the one that the reply is for. -/
def subLine (cfg : L1Config C) (address index : Nat) : Nat :=
  ((address >>> cfg.l2SetLsb) <<< cfg.l2SetLsb) +
    (address + index * (1 <<< cfg.setLsb)) % (1 <<< cfg.l2SetLsb)

end L1Config

/-- `tags[set][0]` is the least recently used way of a set. -/
structure CacheL1 (C : Type) where
  tags : Nat → List L1Entry
  reqEvent : List (Nat × Lqe C) := []
  repEvent : List (Nat × Lqe C) := []
  repQ : List (Lqe C) := []
  reqQs : Nat → List (Lqe C) := fun _ => []
  pres : List PrefetchEntry
  oldestPreEntryIdx : Nat := 0
  stats : L1Stats := {}

namespace CacheL1

def init (cfg : L1Config C) (numWays : Nat) : CacheL1 C where
  tags := fun _ => (List.range numWays).map fun way => { way }
  pres := List.replicate cfg.numPreEntries {}

def addReqEvent (s : CacheL1 C) (t : Nat) (lqe : Lqe C) : CacheL1 C :=
  { s with reqEvent := Multimap.insert t lqe s.reqEvent }

def addRepEvent (s : CacheL1 C) (t : Nat) (lqe : Lqe C) : CacheL1 C :=
  { s with repEvent := Multimap.insert t lqe s.repEvent }

/-- What a call of `process_event` does besides changing the cache -/
structure Effects (C : Type) where
  calls : List (Call C) := []
  deleted : List (Lqe C) := []

def Effects.append (a b : Effects C) : Effects C :=
  { calls := a.calls ++ b.calls, deleted := a.deleted ++ b.deleted }

def toL2Rep (cfg : L1Config C) (t : Nat) (lqe : Lqe C) : Call C :=
  { callee := cfg.cachel2, kind := .rep, time := t + cfg.l1ToL2T, lqe }

def toL2Req (cfg : L1Config C) (t : Nat) (lqe : Lqe C) : Call C :=
  { callee := cfg.cachel2, kind := .req, time := t + cfg.l1ToL2T, lqe }

def addEventToLsu (cfg : L1Config C) (t : Nat) (lqe : Lqe C) : Except Abort (Call C) := do
  let top ← lqe.top
  return { callee := top, kind := if cfg.isData then .rep else .req, time := t + cfg.l1ToLsuT, lqe }

def holds (tag : Nat) (e : L1Entry) : Bool := e.state ≠ .invalid ∧ e.tag = tag

/-- `update_LRU` -/
def touch (ways : List L1Entry) (idx : Nat) (e : L1Entry) : List L1Entry := ways.eraseIdx idx ++ [e]

def setWays (s : CacheL1 C) (set : Nat) (ways : List L1Entry) : CacheL1 C :=
  { s with tags := Function.update s.tags set ways }

/-- What the walk over the lines carries along. `setIt` is where the last match was found, if
any. -/
structure Walk (C : Type) where
  cache : CacheL1 C
  lqe : Lqe C
  setIt : Option (Nat × Nat) := none
  sentToL2 : Bool := false
  effects : Effects C := {}

namespace Walk

def entry (w : Walk C) : Option L1Entry := w.setIt.bind fun (set, idx) => (w.cache.tags set)[idx]?

def setState (w : Walk C) (state : CoherenceState) : Walk C :=
  match w.setIt with
  | none => w
  | some (set, idx) =>
    let ways := (w.cache.tags set).modify idx fun e => { e with state }
    { w with cache := w.cache.setWays set ways }

def count (w : Walk C) (f : L1Stats → L1Stats) : Walk C :=
  { w with cache := { w.cache with stats := f w.cache.stats } }

def call (w : Walk C) (call : Call C) : Walk C :=
  { w with effects := { w.effects with calls := w.effects.calls ++ [call] } }

def delete (w : Walk C) : Walk C :=
  { w with effects := { w.effects with deleted := w.effects.deleted ++ [w.lqe] } }

/-- The element goes back to the second level, with this cache in the place of its sender. -/
def giveBack (cfg : L1Config C) (t : Nat) (w : Walk C) : Except Abort (Walk C) := do
  let lqe ← w.lqe.pop
  let lqe := lqe.push cfg.self
  return ({ w with lqe, sentToL2 := true } : Walk C).call (toL2Rep cfg t lqe)

/-- A core turns the nack that it takes into the request again, in the same element. -/
def retried (core : C) (lqe : Lqe C) : Lqe C :=
  -- `et_read` or `et_write`, which the lines that follow do not tell apart
  if lqe.type = .nack then { lqe with type := .read, path := [core] } else lqe

/-- `et_nack` and `et_rd_bypass` -/
def bypass (cfg : L1Config C) (t : Nat) (w : Walk C) : Except Abort (Walk C) :=
  if w.sentToL2 then return w
  else do
    let w := w.count fun st => { st with numBypass := st.numBypass + 1 }
    let lqe ← w.lqe.pop
    let call ← addEventToLsu cfg t lqe
    return ({ w with lqe := retried call.callee lqe, sentToL2 := true } : Walk C).call call

def deleteAtLast (cfg : L1Config C) (index : Nat) (w : Walk C) : Walk C :=
  if index = cfg.numSubLines - 1 ∧ w.sentToL2 = false then w.delete else w

def evict (cfg : L1Config C) (t index : Nat) (w : Walk C) : Except Abort (Walk C) :=
  let w := w.count fun st => { st with numCoherencyAccess := st.numCoherencyAccess + 1 }
  match w.entry with
  | none => return w.deleteAtLast cfg index
  | some e =>
    let w := (w.count fun st => { st with numEvCoherency := st.numEvCoherency + 1 }).setState
      .invalid
    if e.state = .modified then if w.sentToL2 then return w else w.giveBack cfg t
    else return w.deleteAtLast cfg index

/-- `et_m_to_s` and `et_m_to_m` -/
def mToX (cfg : L1Config C) (t : Nat) (w : Walk C) : Except Abort (Walk C) :=
  let w := w.count fun st => { st with numCoherencyAccess := st.numCoherencyAccess + 1 }
  let w := match w.entry with
    | none => w
    | some e =>
      if e.state ≠ .modified then w
      else if w.lqe.type = .mToM then
        (w.count fun st => { st with numEvCoherency := st.numEvCoherency + 1 }).setState .invalid
      else w.setState .shared
  if w.sentToL2 then return w else w.giveBack cfg t

def dirRd (cfg : L1Config C) (t index : Nat) (w : Walk C) : Except Abort (Walk C) :=
  let w := w.count fun st => { st with numCoherencyAccess := st.numCoherencyAccess + 1 }
  match w.entry with
  | none => return w.deleteAtLast cfg index
  | some e =>
    if w.sentToL2 then return w
    else if e.state ≠ .modified then .error .fatal
    else
      let w := (w.count fun st => { st with numEvCoherency := st.numEvCoherency + 1 }).setState
        .exclusive
      -- from the next line on, the reply is an eviction
      let lqe := { w.lqe.push cfg.self with type := .evict }
      return ({ w with lqe, sentToL2 := true } : Walk C).call (toL2Rep cfg t lqe)

def evictVictim (cfg : L1Config C) (t set thId : Nat) (victim : L1Entry) : List (Call C) :=
  if victim.state = .invalid then []
  else [toL2Rep cfg t (Lqe.new cfg.self (if victim.state = .modified then .evict else .evictNd)
    (cfg.addressOf set victim.tag) thId)]

def filledState (etype : EventType) (found : Option L1Entry) : CoherenceState :=
  if etype = .read ∧ ¬ found.any (fun e => e.state = .modified) then .exclusive else .modified

/-- `et_read` and `et_write`: a fill, at the first line only. `found` is where the line is. -/
def fill (cfg : L1Config C) (t set tag : Nat) (found : Option Nat) (w : Walk C) :
    Except Abort (Walk C) := do
  let ways := w.cache.tags set
  let idx := found.getD 0
  let lqe ← w.lqe.pop
  match ways[idx]? with
  | none => .error .undefined
  | some e =>
    let present := found.map fun _ => e
    let evicts := if found = none then evictVictim cfg t set lqe.thId e else []
    let w := if found = none ∧ e.state ≠ .invalid then
        w.count fun st => { st with numEvCapacity := st.numEvCapacity + 1 }
      else w
    let filled := { e with tag, state := filledState lqe.type present }
    let answer ← addEventToLsu cfg t lqe
    return { w with
      lqe
      cache := w.cache.setWays set (touch ways idx filled)
      setIt := some (set, ways.length - 1)
      effects := { w.effects with calls := w.effects.calls ++ evicts ++ [answer] } }

def look (set : Nat) (found : Option Nat) (w : Walk C) : Walk C :=
  { w with setIt := (found.map fun idx => (set, idx)).or w.setIt }

def visit (cfg : L1Config C) (t index : Nat) (w : Walk C) : Except Abort (Walk C) :=
  let address := cfg.subLine w.lqe.address index
  let set := cfg.setOf address
  let tag := cfg.tagOf address
  let found := (w.cache.tags set).findIdx? (holds tag)
  let w := w.look set found
  match w.lqe.type with
  | .nack => (w.count fun st => { st with numNack := st.numNack + 1 }).bypass cfg t
  | .rdBypass => w.bypass cfg t
  | .evict => w.evict cfg t index
  | .mToS | .mToM => w.mToX cfg t
  | .dirRd => w.dirRd cfg t index
  | .read | .write => if index ≠ 0 then return w else w.fill cfg t set tag found
  | _ => .error .fatal

def visits (cfg : L1Config C) (t : Nat) : List Nat → Walk C → Except Abort (Walk C)
  | [], w => return w
  | index :: rest, w => do
    let w ← w.visit cfg t index
    w.visits cfg t rest

end Walk

/-- The reply half of `process_event`. Neither `1 << 31` nor a longer shift is a power of two as an
`int`. -/
def processReply (cfg : L1Config C) (t : Nat) (s : CacheL1 C) (lqe : Lqe C) :
    Except Abort (CacheL1 C × Effects C) :=
  if 31 ≤ cfg.l2SetLsb then .error .undefined
  else do
    let w ← Walk.visits cfg t (List.range cfg.numSubLines) { cache := s, lqe }
    return (w.cache, w.effects)

def present (cfg : L1Config C) (s : CacheL1 C) (address : Nat) : Bool :=
  (s.tags (cfg.setOf address)).any (holds (cfg.tagOf address))

def markPrefetch (s : CacheL1 C) (addr : Nat) : Option (CacheL1 C) :=
  (s.pres.findIdx? fun pre => pre.addr ≠ 0 ∧ pre.addr = addr).map fun idx =>
    { s with pres := s.pres.modify idx fun pre => { pre with hit := true } }

/-- A read of a line next to one that is in the cache; the oldest prefetch entry is taken for it. -/
def sendPrefetch (cfg : L1Config C) (t : Nat) (s : CacheL1 C) (addr thId : Nat) :
    CacheL1 C × List (Call C) :=
  let oldest := s.pres.getD s.oldestPreEntryIdx {}
  let stats := if oldest.addr = 0 then s.stats else { s.stats with
    numPrefetchRequests := s.stats.numPrefetchRequests + 1
    numPrefetchHits := s.stats.numPrefetchHits + if oldest.hit then 1 else 0 }
  ({ s with
      pres := s.pres.set s.oldestPreEntryIdx { addr }
      oldestPreEntryIdx := (s.oldestPreEntryIdx + 1) % cfg.numPreEntries
      stats },
    [toL2Req cfg t (Lqe.new cfg.self .read addr thId)])

def doPrefetch (cfg : L1Config C) (t : Nat) (s : CacheL1 C) (lqe : Lqe C) :
    CacheL1 C × List (Call C) :=
  let address := (lqe.address >>> cfg.setLsb) <<< cfg.setLsb
  let prevAddr := (address + 2 ^ 64 - (1 <<< cfg.setLsb)) % 2 ^ 64
  let nextAddr := (address + (1 <<< cfg.setLsb)) % 2 ^ 64
  let (s, nextExists) := match s.markPrefetch nextAddr with
    | some s => (s, true)
    | none => (s, false)
  let prevExists := !nextExists && s.present cfg prevAddr
  if prevExists then s.sendPrefetch cfg t nextAddr lqe.thId
  else
    match s.markPrefetch prevAddr with
    | some s => (s, [])
    | none => if s.present cfg nextAddr then s.sendPrefetch cfg t prevAddr lqe.thId else (s, [])

def stable : CoherenceState → Bool
  | .exclusive | .shared | .modified => true
  | _ => false

/-- What a request finds: a hit moves its way to the end, an upgrade gives the line up. -/
inductive Lookup
  | hit (idx : Nat) (e : L1Entry)
  | upgrade (idx : Nat) (e : L1Entry)
  | miss

def lookup (etype : EventType) (tag : Nat) (ways : List L1Entry) : Lookup :=
  match ways.findIdx? (holds tag) with
  | none => .miss
  | some idx =>
    match ways[idx]? with
    | none => .miss
    | some e =>
      if etype = .read then if stable e.state then .hit idx e else .miss
      else if e.state = .modified then .hit idx e
      else if e.state = .shared ∨ e.state = .exclusive then .upgrade idx e
      else .miss

def countAccess (etype : EventType) (st : L1Stats) : L1Stats :=
  if etype = .read then { st with numRdAccess := st.numRdAccess + 1 }
  else { st with numWrAccess := st.numWrAccess + 1 }

def countMiss (etype : EventType) (st : L1Stats) : L1Stats :=
  if etype = .write then { st with numWrMiss := st.numWrMiss + 1 }
  else { st with numRdMiss := st.numRdMiss + 1 }

/-- A request apart from prefetching. With `always_hit` nothing is looked up. -/
def access (cfg : L1Config C) (t : Nat) (s : CacheL1 C) (lqe : Lqe C) :
    Except Abort (CacheL1 C × List (Call C)) :=
  let set := cfg.setOf lqe.address
  let s := { s with stats := countAccess lqe.type s.stats }
  let missed := toL2Req cfg t (lqe.push cfg.self)
  if cfg.alwaysHit then do
    let answer ← addEventToLsu cfg t lqe
    return (s, [answer])
  else
    match lookup lqe.type (cfg.tagOf lqe.address) (s.tags set) with
    | .hit idx e => do
      let answer ← addEventToLsu cfg t lqe
      return (s.setWays set (touch (s.tags set) idx e), [answer])
    | .upgrade idx e =>
      let s := { s with stats := { s.stats with numUpgradeReq := s.stats.numUpgradeReq + 1 } }
      return (s.setWays set ((s.tags set).set idx { e with state := .invalid }), [missed])
    | .miss => return ({ s with stats := countMiss lqe.type s.stats }, [missed])

/-- The request half of `process_event`; what is not a read is served as a write. -/
def processRequest (cfg : L1Config C) (t : Nat) (s : CacheL1 C) (lqe : Lqe C) :
    Except Abort (CacheL1 C × Effects C) := do
  let (s, calls) ← access cfg t s lqe
  let (s, prefetches) := if lqe.type = .read ∧ cfg.usePrefetch then s.doPrefetch cfg t lqe
    else (s, [])
  return (s, { calls := calls ++ prefetches })

def processRequests (cfg : L1Config C) (t : Nat) :
    CacheL1 C → List (Lqe C) → Except Abort (CacheL1 C × Effects C)
  | s, [] => return (s, {})
  | s, lqe :: rest => do
    let (s, a) ← processRequest cfg t s lqe
    let (s, b) ← processRequests cfg t s rest
    return (s, a.append b)

def enqueue (cfg : L1Config C) (qs : Nat → List (Lqe C)) (lqe : Lqe C) : Nat → List (Lqe C) :=
  let bank := (lqe.address >>> cfg.setLsb) % cfg.numBanks
  Function.update qs bank (qs bank ++ [lqe])

def takeEvents (cfg : L1Config C) (t : Nat) (s : CacheL1 C) : CacheL1 C :=
  { s with
    repEvent := s.repEvent.dropWhile (fun e => e.1 = t)
    reqEvent := s.reqEvent.dropWhile (fun e => e.1 = t)
    repQ := s.repQ ++ (Multimap.front t s.repEvent).map (·.2)
    reqQs := ((Multimap.front t s.reqEvent).map (·.2)).foldl (enqueue cfg) s.reqQs }

def frontRequests (cfg : L1Config C) (s : CacheL1 C) : List (Lqe C) :=
  (List.range cfg.numBanks).filterMap fun bank => (s.reqQs bank).head?

def serve (cfg : L1Config C) (t : Nat) (s : CacheL1 C) : Except Abort (CacheL1 C × Effects C) :=
  match s.repQ with
  | lqe :: repQ => processReply cfg t { s with repQ } lqe
  | [] =>
    processRequests cfg t { s with reqQs := fun bank => (s.reqQs bank).tail } (s.frontRequests cfg)

def anyQueued (cfg : L1Config C) (s : CacheL1 C) : Bool :=
  !s.repQ.isEmpty || (List.range cfg.numBanks).any fun bank => !(s.reqQs bank).isEmpty

/-- `CacheL1::process_event`. The last component is the tick the cache asks to be woken at. -/
def processEvent (cfg : L1Config C) (t : Nat) (s : CacheL1 C) :
    Except Abort (CacheL1 C × Effects C × Option Nat) := do
  let (s, effects) ← serve cfg t (s.takeEvents cfg t)
  return (s, effects, if s.anyQueued cfg then some (t + cfg.processInterval) else none)

inductive Run (cfg : L1Config C) (numWays : Nat) : CacheL1 C → Prop
  | init : Run cfg numWays (init cfg numWays)
  | addReq {s : CacheL1 C} (t : Nat) (lqe : Lqe C) : Run cfg numWays s →
      Run cfg numWays (s.addReqEvent t lqe)
  | addRep {s : CacheL1 C} (t : Nat) (lqe : Lqe C) : Run cfg numWays s →
      Run cfg numWays (s.addRepEvent t lqe)
  | process {s s' : CacheL1 C} {effects : Effects C} {wakeup : Option Nat} (t : Nat) :
      Run cfg numWays s →
      s.processEvent cfg t = .ok (s', effects, wakeup) → Run cfg numWays s'

end CacheL1
end McSim
