import McSim.Component
import McSim.Lib.Multimap

/-! The second-level cache.
A handler acts on the way of a set that an event finds and returns what becomes of that
way, the calls on neighbours and the elements it deletes. `process_event` picks the way and
the event. Where the source reads the top of an empty stack the outcome is undefined. -/

namespace McSim

variable {C : Type}

/-- `CacheL2::L2Entry`. `way` is ghost: which entry of its set this is. -/
structure L2Entry (C : Type) where
  way : Nat := 0
  tag : Nat := 0
  type : CoherenceState := .invalid
  typeL1L2 : CoherenceState := .invalid
  sharedL1 : Finset C := ∅
  pending : Option (Lqe C) := none
  firstAccessTime : Nat := 0
  lastAccessTime : Nat := 0

structure L2Stats where
  numRdAccess : Nat := 0
  numRdMiss : Nat := 0
  numWrAccess : Nat := 0
  numWrMiss : Nat := 0
  numEvCoherency : Nat := 0
  numEvCapacity : Nat := 0
  numCoherencyAccess : Nat := 0
  numUpgradeReq : Nat := 0
  numBypass : Nat := 0
  numNack : Nat := 0
  numEvFromL1 : Nat := 0
  numEvFromL1Miss : Nat := 0
  numDestroyedCacheLines : Nat := 0
  cacheLineLifeTime : Nat := 0
  timeBetweenLastAccessAndCacheDestroy : Nat := 0

/-- `num_sets` and `num_banks` are divisors. -/
structure L2Config (C : Type) where
  self : C
  directory : C
  directoryNum : Nat
  crossbar : C
  whichMc : Nat → Nat
  setLsb : Nat
  numSets : Nat
  numSets_pos : 0 < numSets
  numBanks : Nat
  numBanks_pos : 0 < numBanks
  l2ToL1T : Nat
  l2ToDirT : Nat
  l2ToXbarT : Nat
  numFlitsPerPacket : Nat
  alwaysHit : Bool
  processInterval : Nat

namespace L2Config

def setOf (cfg : L2Config C) (address : Nat) : Nat := (address >>> cfg.setLsb) % cfg.numSets

def tagOf (cfg : L2Config C) (address : Nat) : Nat := (address >>> cfg.setLsb) / cfg.numSets

def addressOf (cfg : L2Config C) (set tag : Nat) : Nat := (tag * cfg.numSets + set) <<< cfg.setLsb

end L2Config

namespace CacheL2

/-- What becomes of the way an event has found: `touch` also runs `update_LRU`. -/
inductive WayUpdate (C : Type)
  | keep
  | set (e : L2Entry C)
  | touch (e : L2Entry C)

structure Outcome (C : Type) where
  way : WayUpdate C := .keep
  calls : List (Call C) := []
  deleted : List (Lqe C) := []
  stats : L2Stats

/-- `c->add_rep_event(curr_time + l2_to_l1_t, lqe)` -/
def toL1 (cfg : L2Config C) (t : Nat) (c : C) (lqe : Lqe C) : Call C :=
  { callee := c, kind := .rep, time := t + cfg.l2ToL1T, lqe }

def viaDirectory (cfg : L2Config C) (t : Nat) (lqe : Lqe C) : Call C :=
  { callee := cfg.directory, kind := .rep, time := t + cfg.l2ToDirT, lqe }

def viaCrossbar (cfg : L2Config C) (t : Nat) (lqe : Lqe C) (isData : Bool) : Call C :=
  { callee := cfg.crossbar, kind := .rep, time := t + cfg.l2ToXbarT, lqe,
    flits := if isData then some cfg.numFlitsPerPacket else none }

/-- `add_event_to_LL` with `check_top == false` -/
def addEventToLL (cfg : L2Config C) (t : Nat) (lqe : Lqe C) (isData : Bool) : Call C :=
  if cfg.whichMc lqe.address = cfg.directoryNum then viaDirectory cfg t lqe
  else viaCrossbar cfg t lqe isData

section Handlers
variable [LinearOrder C]

/-- `add_event_to_LL` with `check_top == true` -/
def addEventToLLTop (cfg : L2Config C) (t : Nat) (lqe : Lqe C) (isData : Bool) :
    Except Abort (Call C) := do
  let top ← lqe.top
  return if top = cfg.directory then viaDirectory cfg t lqe else viaCrossbar cfg t lqe isData

/-- The messages of `req_L1_evict`; the caller clears `sharedl1`. -/
def reqL1Evict (cfg : L2Config C) (t : Nat) (e : L2Entry C) (address : Nat) (lqe : Lqe C)
    (always : Bool) : Except Abort (List (Call C)) :=
  let evict := fun c => toL1 cfg t c (Lqe.new cfg.self .evict address lqe.thId)
  if always then return (inOrder e.sharedL1).map evict
  else if e.sharedL1 = ∅ then return []
  else do
    let top ← lqe.top
    return ((inOrder e.sharedL1).filter (· ≠ top)).map evict

def destroy (st : L2Stats) (t : Nat) (e : L2Entry C) : L2Stats :=
  { st with
    numDestroyedCacheLines := st.numDestroyedCacheLines + 1
    cacheLineLifeTime := st.cacheLineLifeTime + (t - e.firstAccessTime)
    timeBetweenLastAccessAndCacheDestroy :=
      st.timeBetweenLastAccessAndCacheDestroy + (t - e.lastAccessTime) }

/-- `et_write_nd` -/
def repWriteNd (cfg : L2Config C) (t set : Nat) (found : Option (L2Entry C)) (lqe : Lqe C)
    (st : L2Stats) : Except Abort (Outcome C) := do
  let lqe ← lqe.pop
  match found.filter (fun e => e.type = .trToM) with
  | none =>
    let top ← lqe.top
    let eToI := Lqe.new cfg.self .eToI lqe.address lqe.thId
    return {
      calls := [toL1 cfg t top { lqe with type := .nack }, addEventToLL cfg t eToI false]
      stats := st }
  | some e =>
    let evicts ← reqL1Evict cfg t e (cfg.addressOf set e.tag) lqe false
    let top ← lqe.top
    let eToM := Lqe.new cfg.self .eToM lqe.address lqe.thId
    return {
      way := .touch { e with
        type := .modified, typeL1L2 := .modified, tag := cfg.tagOf lqe.address
        sharedL1 := {top}, lastAccessTime := t }
      calls := evicts ++ [toL1 cfg t top { lqe with type := .write }, addEventToLL cfg t eToM false]
      stats := st }

def filledType : EventType → CoherenceState
  | .eRd => .exclusive
  | .sRd => .shared
  | _ => .modified

def filledTypeL1 (etype : EventType) (shared : Bool) : CoherenceState :=
  if etype = .write then .modified else if shared then .shared else .exclusive

def filledAnswer (etype : EventType) (lqe : Lqe C) : Lqe C :=
  { lqe with type := if etype = .write then .write else .read }

def install (cfg : L2Config C) (t : Nat) (etype : EventType) (shared : Bool) (e : L2Entry C)
    (lqe : Lqe C) (calls : List (Call C)) (st : L2Stats) : Except Abort (Outcome C) :=
  let answer := filledAnswer etype lqe
  let filled := { e with
    type := filledType etype, tag := cfg.tagOf lqe.address, lastAccessTime := t }
  if lqe.path.length > 1 then do
    let top ← lqe.top
    return {
      way := .touch { filled with
        typeL1L2 := filledTypeL1 etype shared, sharedL1 := insert top e.sharedL1 }
      calls := calls ++ [toL1 cfg t top answer]
      stats := st }
  else return {
    way := .touch { filled with typeL1L2 := .invalid }
    calls, deleted := [answer], stats := st }

def transient : CoherenceState → Bool
  | .trToS | .trToM | .trToE | .trToI => true
  | _ => false

/-- The nack of a fill that found no room, unless it was a prefetch. -/
def nackRequester (cfg : L2Config C) (t : Nat) (lqe : Lqe C) : Except Abort (List (Call C)) :=
  if lqe.path.length > 1 then do
    let top ← lqe.top
    return [toL1 cfg t top { lqe with type := .nack }]
  else return []

def fillBypass (cfg : L2Config C) (t : Nat) (lqe : Lqe C) (st : L2Stats) :
    Except Abort (Outcome C) := do
  let nack ← nackRequester cfg t lqe
  let evict := Lqe.new cfg.self .evict lqe.address lqe.thId
  return {
    calls := nack ++ [addEventToLL cfg t evict false]
    deleted := if lqe.path.length = 1 then [lqe] else []
    stats := { st with numBypass := st.numBypass + 1 } }

/-- The write-back of a victim; the owner L1 sends its own. -/
def evictVictim (cfg : L2Config C) (t address thId : Nat) (victim : L2Entry C) : List (Call C) :=
  if victim.typeL1L2 = .modified then []
  else [addEventToLL cfg t (Lqe.new cfg.self .evict address thId) (victim.type = .modified)]

def fillVictim (cfg : L2Config C) (t set : Nat) (etype : EventType) (victim : L2Entry C)
    (lqe : Lqe C) (st : L2Stats) : Except Abort (Outcome C) :=
  if transient victim.type then fillBypass cfg t lqe st
  else if victim.type = .invalid then
    install cfg t etype false { victim with firstAccessTime := t } lqe [] st
  else do
    let address := cfg.addressOf set victim.tag
    let evicts ← reqL1Evict cfg t victim address lqe true
    install cfg t etype false { victim with firstAccessTime := t, sharedL1 := ∅ } lqe
      (evicts ++ evictVictim cfg t address lqe.thId victim)
      (destroy { st with numEvCapacity := st.numEvCapacity + 1 } t victim)

def fillFound (cfg : L2Config C) (t set : Nat) (etype : EventType) (e : L2Entry C) (lqe : Lqe C)
    (st : L2Stats) : Except Abort (Outcome C) :=
  if etype = .write then do
    let evicts ← reqL1Evict cfg t e (cfg.addressOf set e.tag) lqe false
    install cfg t etype false { e with sharedL1 := ∅ } lqe evicts st
  else if e.type = .modified ∨ e.type = .trToE then
    -- the answer was overtaken: the line keeps its state
    let st := { st with numBypass := st.numBypass + 1 }
    if lqe.path.length > 1 then do
      let top ← lqe.top
      return { calls := [toL1 cfg t top { lqe with type := .rdBypass }], stats := st }
    else return { deleted := [lqe], stats := st }
  else install cfg t etype (etype = .sRd) e lqe [] st

/-- `et_e_rd`, `et_s_rd` and `et_write` -/
def repFill (cfg : L2Config C) (t set : Nat) (found : Option (L2Entry C)) (victim : L2Entry C)
    (lqe : Lqe C) (st : L2Stats) : Except Abort (Outcome C) := do
  let etype := lqe.type
  let lqe ← lqe.pop
  match found with
  | none => fillVictim cfg t set etype victim lqe st
  | some e => fillFound cfg t set etype e lqe st

/-- A forwarded request that comes back to a line the directory has asked for: deleted if the
owner L1 was only asked to give the line up, else sent back with a nack. -/
def turnAway (cfg : L2Config C) (t set : Nat) (e : L2Entry C) (lqe : Lqe C) :
    Except Abort (List (Call C) × List (Lqe C)) :=
  let nack := { lqe with type := .nack }
  match e.typeL1L2 with
  | .trToI => return ([], [lqe])
  | .trToM => do
    let top ← lqe.top
    return ([toL1 cfg t top nack], [])
  | _ => do
    let top ← lqe.top
    let evicts ← reqL1Evict cfg t { e with sharedL1 := insert top e.sharedL1 }
      (cfg.addressOf set e.tag) nack true
    return (toL1 cfg t top nack :: evicts, [])

def clearTurnedAway (e : L2Entry C) : Finset C :=
  match e.typeL1L2 with
  | .trToI | .trToM => e.sharedL1
  | _ => ∅

def returnPending (cfg : L2Config C) (t : Nat) (e : L2Entry C) : Except Abort (List (Call C)) :=
  match e.pending with
  | none => return []
  | some pending => do
    let call ← addEventToLLTop cfg t pending true
    return [call]

/-- `type_l1l2` and the answer once the owner L1 has given the line up. -/
def returnedTypeL1 (e : L2Entry C) : CoherenceState :=
  if e.typeL1L2 = .trToS then .shared else if e.pending = none then .modified else .invalid

def returnedAnswer (e : L2Entry C) (lqe : Lqe C) : Lqe C :=
  { lqe with type := if lqe.type = .mToS then .read else if e.pending = none then .write else .nack }

/-- `et_m_to_s` and `et_m_to_m`, back from the L1 that owned the line -/
def repMToX (cfg : L2Config C) (t set : Nat) (found : Option (L2Entry C)) (lqe : Lqe C)
    (st : L2Stats) : Except Abort (Outcome C) := do
  let lqe ← lqe.pop
  let st := { st with numCoherencyAccess := st.numCoherencyAccess + 1 }
  match found with
  | none => .error .fatal
  | some e =>
    if e.type = .trToI ∧ e.pending ≠ none then
      let (calls, deleted) ← turnAway cfg t set e lqe
      let back ← returnPending cfg t e
      return {
        way := .touch { e with
          pending := none, typeL1L2 := .invalid, type := .invalid, sharedL1 := clearTurnedAway e }
        calls := calls ++ back
        deleted
        stats := destroy { st with numEvCoherency := st.numEvCoherency + 1 } t e }
    else if e.typeL1L2 = .trToM ∨ e.typeL1L2 = .trToS then
      let top ← lqe.top
      let back ← returnPending cfg t e
      return {
        way := .touch { e with
          typeL1L2 := returnedTypeL1 e, sharedL1 := insert top e.sharedL1, lastAccessTime := t
          pending := none, type := if e.pending = none then e.type else .shared }
        calls := toL1 cfg t top (returnedAnswer e lqe) :: back
        stats := { st with numEvCoherency := st.numEvCoherency + 1 } }
    else .error .fatal

/-- `et_evict` and `et_evict_nd` from an L1 -/
def repEvict (cfg : L2Config C) (t : Nat) (found : Option (L2Entry C)) (lqe : Lqe C)
    (st : L2Stats) : Except Abort (Outcome C) :=
  let st := { st with numEvFromL1 := st.numEvFromL1 + 1 }
  match found with
  | some e =>
    if e.type = .trToS then
      match e.pending with
      | none => .error .undefined
      | some pending => do
        let back ← addEventToLLTop cfg t pending true
        let top ← lqe.top
        return {
          way := .set { e with
            type := .shared, pending := none, sharedL1 := insert top e.sharedL1
            lastAccessTime := t }
          calls := [back]
          deleted := [lqe]
          stats := { st with numCoherencyAccess := st.numCoherencyAccess + 1 } }
    else do
      let top ← lqe.top
      let sharedL1 := e.sharedL1.erase top
      let typeL1L2 := if sharedL1 = ∅ ∧ e.typeL1L2 ≠ .trToS ∧ e.typeL1L2 ≠ .trToM ∧
        e.typeL1L2 ≠ .trToI then .invalid else e.typeL1L2
      return {
        way := .touch { e with sharedL1, typeL1L2, lastAccessTime := t }
        deleted := [lqe]
        stats := st }
  | none => do
    let st := { st with numEvFromL1Miss := st.numEvFromL1Miss + 1 }
    if lqe.type = .evict ∧ cfg.alwaysHit = false then
      let back ← addEventToLLTop cfg t (lqe.push cfg.self) true
      return { calls := [back], stats := st }
    else return { deleted := [lqe], stats := st }

def repDirRd (cfg : L2Config C) (t set : Nat) (found : Option (L2Entry C)) (lqe : Lqe C)
    (st : L2Stats) : Except Abort (Outcome C) :=
  let st := { st with numCoherencyAccess := st.numCoherencyAccess + 1 }
  match found with
  | none =>
    return { calls := [addEventToLL cfg t { lqe with type := .dirRdNd } false], stats := st }
  | some e =>
    if e.type ≠ .modified then .error .fatal
    else
      match e.typeL1L2 with
      | .invalid | .exclusive | .shared => do
        let back ← addEventToLLTop cfg t lqe true
        return {
          way := .set { e with type := .shared, lastAccessTime := t }
          calls := [back], stats := st }
      | .modified =>
        if e.sharedL1.card ≠ 1 then .error .fatalSize
        else
          match first e.sharedL1 with
          | none => .error .undefined
          | some owner =>
            let dirRd := Lqe.new cfg.self .dirRd (cfg.addressOf set e.tag) lqe.thId
            return {
              way := .set { e with
                typeL1L2 := .exclusive, type := .trToS, pending := some lqe, sharedL1 := ∅
                lastAccessTime := t }
              calls := [toL1 cfg t owner dirRd]
              stats := st }
      | .trToM | .trToS =>
        if e.pending ≠ none then .error .fatal
        else return {
          way := .set { e with pending := some lqe, lastAccessTime := t }
          stats := st }
      | _ => .error .fatal

def repNack (cfg : L2Config C) (t : Nat) (lqe : Lqe C) (st : L2Stats) :
    Except Abort (Outcome C) := do
  let st := { st with numNack := st.numNack + 1, numBypass := st.numBypass + 1 }
  let lqe ← lqe.pop
  if lqe.path.length > 1 then
    let top ← lqe.top
    return { calls := [toL1 cfg t top lqe], stats := st }
  else return { deleted := [lqe], stats := st }

/-- `et_e_to_s` and `et_s_to_s` -/
def repToS (cfg : L2Config C) (t : Nat) (found : Option (L2Entry C)) (lqe : Lqe C)
    (st : L2Stats) : Except Abort (Outcome C) :=
  let st := { st with numCoherencyAccess := st.numCoherencyAccess + 1 }
  match found with
  | some e =>
    if e.type ≠ .exclusive ∧ e.type ≠ .shared ∧ e.type ≠ .trToM then .error .fatal
    else do
      let back ← addEventToLLTop cfg t lqe true
      return {
        way := .set { e with type := .shared, lastAccessTime := t }
        calls := [back], stats := st }
  | none =>
    let lqe := { lqe with type := if lqe.type = .eToS then .eToSNd else .sToSNd }
    return { calls := [addEventToLL cfg t lqe false], stats := st }

def repInvalidate (cfg : L2Config C) (t set : Nat) (found : Option (L2Entry C)) (lqe : Lqe C)
    (st : L2Stats) : Except Abort (Outcome C) :=
  let st := { st with numCoherencyAccess := st.numCoherencyAccess + 1 }
  match found with
  | none => do
    let back ← addEventToLLTop cfg t { lqe with type := .invalidateNd } false
    return { calls := [back], stats := st }
  | some e =>
    if e.type = .trToS ∨ e.type = .trToE ∨ e.type = .trToI then .error .fatal
    else if e.type = .modified ∧ e.typeL1L2 = .modified then
      if e.sharedL1.card ≠ 1 then .error .fatalSize
      else
        match first e.sharedL1 with
        | none => .error .undefined
        | some owner =>
          let mToM := Lqe.new cfg.self .mToM (cfg.addressOf set e.tag) lqe.thId
          return {
            way := .set { e with
              typeL1L2 := .trToI, type := .trToI, pending := some lqe, sharedL1 := ∅
              lastAccessTime := t }
            calls := [toL1 cfg t owner mToM]
            stats := st }
    else if e.type = .modified ∧ (e.typeL1L2 = .trToM ∨ e.typeL1L2 = .trToS) then
      if e.pending ≠ none then .error .fatal
      else return {
        way := .set { e with type := .trToI, pending := some lqe, lastAccessTime := t }
        stats := st }
    else do
      let evicts ← reqL1Evict cfg t e (cfg.addressOf set e.tag) lqe true
      let back ← addEventToLLTop cfg t lqe (lqe.type = .invalidate)
      return {
        way := .set { e with type := .invalid, typeL1L2 := .invalid, sharedL1 := ∅ }
        calls := evicts ++ [back]
        stats := destroy { st with numEvCoherency := st.numEvCoherency + 1 } t e }

/-- The reply half of `process_event`, by event type. -/
def reply (cfg : L2Config C) (t set : Nat) (found : Option (L2Entry C)) (victim : L2Entry C)
    (lqe : Lqe C) (st : L2Stats) : Except Abort (Outcome C) :=
  match lqe.type with
  | .writeNd => repWriteNd cfg t set found lqe st
  | .eRd | .sRd | .write => repFill cfg t set found victim lqe st
  | .mToS | .mToM => repMToX cfg t set found lqe st
  | .evict | .evictNd => repEvict cfg t found lqe st
  | .dirRd => repDirRd cfg t set found lqe st
  | .nack => repNack cfg t lqe st
  | .eToS | .sToS => repToS cfg t found lqe st
  | .invalidate | .invalidateNd => repInvalidate cfg t set found lqe st
  | .nop => return { deleted := [lqe], stats := st }
  | _ => .error .fatal

structure ReqOutcome (C : Type) where
  way : WayUpdate C := .keep
  lqe : Lqe C
  calls : List (Call C) := []
  hit : Bool
  enterIntermediateState : Bool := false
  isCoherenceMiss : Bool := false

def busy (e : L2Entry C) : Prop :=
  (e.typeL1L2 = .exclusive ∧ e.type = .trToS) ∨ e.typeL1L2 = .trToS ∨ e.typeL1L2 = .trToM ∨
    e.typeL1L2 = .trToI ∨ e.type = .trToM

instance (e : L2Entry C) : Decidable (busy e) := by unfold busy; infer_instance

def stable : CoherenceState → Bool
  | .exclusive | .shared | .modified => true
  | _ => false

/-- A request goes to the sole owner L1, with this cache on its way back. -/
def forward (cfg : L2Config C) (t : Nat) (type : EventType) (owner : C) (lqe : Lqe C) : Call C :=
  toL1 cfg t owner { lqe.push cfg.self with type }

def readFound (cfg : L2Config C) (t : Nat) (e : L2Entry C) (lqe : Lqe C) :
    Except Abort (ReqOutcome C) :=
  let used := { e with lastAccessTime := t }
  if e.typeL1L2 = .invalid ∧ stable e.type then do
    let top ← lqe.top
    let way := .touch { used with typeL1L2 := .exclusive, sharedL1 := insert top e.sharedL1 }
    return { way, lqe, hit := true }
  else if e.typeL1L2 = .exclusive ∧ stable e.type then do
    let top ← lqe.top
    let sharedL1 := insert top e.sharedL1
    let typeL1L2 := if sharedL1.card > 1 then .shared else .exclusive
    return { way := .touch { used with typeL1L2, sharedL1 }, lqe, hit := true }
  else if e.typeL1L2 = .shared ∧ stable e.type then do
    let top ← lqe.top
    return { way := .touch { used with sharedL1 := insert top e.sharedL1 }, lqe, hit := true }
  else if e.typeL1L2 = .modified ∧ e.type = .modified then
    if e.sharedL1.card > 1 then .error .fatalSize
    else
      match first e.sharedL1 with
      | some owner => do
        let top ← lqe.top
        if owner ≠ top then
          return {
            way := .touch { used with typeL1L2 := .trToS, sharedL1 := ∅ }
            lqe, calls := [forward cfg t .mToS owner lqe], hit := true
            enterIntermediateState := true }
        else return { way := .touch used, lqe, hit := true }
      | none => do
        let top ← lqe.top
        let way := .touch { used with typeL1L2 := .shared, sharedL1 := insert top e.sharedL1 }
        return { way, lqe, hit := true }
  else if busy e then return { way := .touch used, lqe := { lqe with type := .nack }, hit := true }
  else .error .fatal

def soleRequester (e : L2Entry C) (lqe : Lqe C) : Except Abort Bool :=
  if e.type = .exclusive ∧ e.sharedL1.card = 1 then do
    let top ← lqe.top
    return first e.sharedL1 = some top
  else return false

/-- A write that finds its line in `cs_exclusive` or `cs_shared` asks the directory. -/
def writeUpgrade (cfg : L2Config C) (t set : Nat) (e : L2Entry C) (lqe : Lqe C) :
    Except Abort (ReqOutcome C) := do
  let sole ← soleRequester e lqe
  if sole then return {
    way := .set { e with type := .trToM, lastAccessTime := t }
    lqe, hit := cfg.alwaysHit, isCoherenceMiss := true }
  else
    let evicts ← reqL1Evict cfg t e (cfg.addressOf set e.tag) lqe false
    return {
      way := .set (if e.sharedL1 = ∅ then e
        else { e with type := .invalid, lastAccessTime := t, sharedL1 := ∅ })
      lqe, calls := evicts, hit := cfg.alwaysHit, isCoherenceMiss := true }

def own (t : Nat) (e : L2Entry C) (lqe : Lqe C) (calls : List (Call C)) :
    Except Abort (ReqOutcome C) := do
  let top ← lqe.top
  return {
    way := .touch { e with
      typeL1L2 := .modified, sharedL1 := insert top e.sharedL1, lastAccessTime := t }
    lqe, calls, hit := true }

def writeFound (cfg : L2Config C) (t set : Nat) (e : L2Entry C) (lqe : Lqe C) :
    Except Abort (ReqOutcome C) :=
  let address := cfg.addressOf set e.tag
  if e.type = .modified ∧ e.typeL1L2 = .invalid then own t e lqe []
  else if e.type = .modified ∧ e.typeL1L2 = .modified then
    if e.sharedL1.card ≠ 1 then .error .fatalSize
    else
      match first e.sharedL1 with
      | none => .error .undefined
      | some owner => do
        let top ← lqe.top
        if owner ≠ top then
          return {
            way := .touch { e with typeL1L2 := .trToM, sharedL1 := ∅, lastAccessTime := t }
            lqe, calls := [forward cfg t .mToM owner lqe], hit := true
            enterIntermediateState := true }
        else own t e lqe []
  else if e.type = .modified ∧ e.typeL1L2 = .exclusive then
    if e.sharedL1.card > 1 then .error .fatalSize
    else
      match first e.sharedL1 with
      | none => own t e lqe []
      | some other => do
        let top ← lqe.top
        if other ≠ top then
          let evict := Lqe.new cfg.self .evict address lqe.thId
          own t { e with sharedL1 := ∅ } lqe [toL1 cfg t other evict]
        else own t e lqe []
  else if e.type = .modified ∧ e.typeL1L2 = .shared then do
    let evicts ← reqL1Evict cfg t e address lqe false
    own t { e with sharedL1 := ∅ } lqe evicts
  else if busy e then return {
    way := .touch { e with lastAccessTime := t }
    lqe := { lqe with type := .nack }, hit := true }
  else .error .fatal

def readRequest (cfg : L2Config C) (t : Nat) (found : Option (L2Entry C)) (lqe : Lqe C) :
    Except Abort (ReqOutcome C) :=
  match found with
  | none => return { lqe, hit := cfg.alwaysHit }
  | some e => if lqe.path.length = 1 then return { lqe, hit := true } else readFound cfg t e lqe

def writeRequest (cfg : L2Config C) (t set : Nat) (found : Option (L2Entry C)) (lqe : Lqe C) :
    Except Abort (ReqOutcome C) :=
  match found with
  | none => return { lqe, hit := cfg.alwaysHit }
  | some e =>
    if e.type = .exclusive ∨ e.type = .shared then writeUpgrade cfg t set e lqe
    else writeFound cfg t set e lqe

def miss (cfg : L2Config C) (t : Nat) (lqe : Lqe C) : Call C :=
  let lqe := lqe.push cfg.self
  if cfg.whichMc lqe.address = cfg.directoryNum then
    { callee := cfg.directory, kind := .req, time := t + cfg.l2ToDirT, lqe }
  else { callee := cfg.crossbar, kind := .req, time := t + cfg.l2ToXbarT, lqe }

def dispose (cfg : L2Config C) (t : Nat) (etype : EventType) (r : ReqOutcome C) (st : L2Stats) :
    Except Abort (Outcome C) :=
  if r.enterIntermediateState then return { way := r.way, calls := r.calls, stats := st }
  else if r.hit = false then
    let st := if r.isCoherenceMiss then st
      else if etype = .write then { st with numWrMiss := st.numWrMiss + 1 }
      else { st with numRdMiss := st.numRdMiss + 1 }
    return { way := r.way, calls := r.calls ++ [miss cfg t r.lqe], stats := st }
  else if r.lqe.path.length > 1 then do
    let top ← r.lqe.top
    return { way := r.way, calls := r.calls ++ [toL1 cfg t top r.lqe], stats := st }
  else return { way := r.way, calls := r.calls, stats := st }

/-- The request half of `process_event`; what is not a read is served as a write. -/
def request (cfg : L2Config C) (t set : Nat) (found : Option (L2Entry C)) (lqe : Lqe C)
    (st : L2Stats) : Except Abort (Outcome C) := do
  if lqe.type = .read then
    let r ← readRequest cfg t found lqe
    dispose cfg t lqe.type r { st with numRdAccess := st.numRdAccess + 1 }
  else
    let r ← writeRequest cfg t set found lqe
    let up := if r.isCoherenceMiss then st.numUpgradeReq + 1 else st.numUpgradeReq
    dispose cfg t lqe.type r { st with numWrAccess := st.numWrAccess + 1, numUpgradeReq := up }

end Handlers

def holdsForReply (tag : Nat) (e : L2Entry C) : Bool := e.type ≠ .invalid ∧ e.tag = tag

def holdsForRequest (tag : Nat) (e : L2Entry C) : Bool :=
  e.type ≠ .invalid ∧ e.type ≠ .trToE ∧ e.tag = tag

def found (p : L2Entry C → Bool) (ways : List (L2Entry C)) : Option (L2Entry C) :=
  (ways.findIdx? p).bind fun idx => ways[idx]?

/-- `update_LRU` moves a way to the end of its set. -/
def updateWay (ways : List (L2Entry C)) (idx : Nat) : WayUpdate C → List (L2Entry C)
  | .keep => ways
  | .set e => ways.set idx e
  | .touch e => ways.eraseIdx idx ++ [e]

end CacheL2

/-- `tags[set][0]` is the least recently used way of a set. -/
structure CacheL2 (C : Type) where
  tags : Nat → List (L2Entry C)
  reqEvent : List (Nat × Lqe C) := []
  repEvent : List (Nat × Lqe C) := []
  repQ : List (Lqe C) := []
  reqQs : Nat → List (Lqe C) := fun _ => []
  stats : L2Stats := {}

namespace CacheL2

def init (numWays : Nat) : CacheL2 C :=
  { tags := fun _ => (List.range numWays).map fun way => { way } }

def addReqEvent (cfg : L2Config C) (s : CacheL2 C) (t : Nat) (lqe : Lqe C) : CacheL2 C :=
  { s with reqEvent := Multimap.insert (ceilByY t cfg.processInterval) lqe s.reqEvent }

def addRepEvent (cfg : L2Config C) (s : CacheL2 C) (t : Nat) (lqe : Lqe C) : CacheL2 C :=
  { s with repEvent := Multimap.insert (ceilByY t cfg.processInterval) lqe s.repEvent }

structure Effects (C : Type) where
  calls : List (Call C) := []
  deleted : List (Lqe C) := []

section Process
variable [LinearOrder C]

def apply (s : CacheL2 C) (set idx : Nat) (o : Outcome C) : CacheL2 C × Effects C :=
  ({ s with
      tags := Function.update s.tags set (updateWay (s.tags set) idx o.way)
      stats := o.stats },
    { calls := o.calls, deleted := o.deleted })

def processReply (cfg : L2Config C) (t : Nat) (s : CacheL2 C) (lqe : Lqe C) :
    Except Abort (CacheL2 C × Effects C) :=
  let set := cfg.setOf lqe.address
  let holds := holdsForReply (cfg.tagOf lqe.address)
  match (s.tags set).head? with
  | none => .error .undefined
  | some victim => do
    let o ← reply cfg t set (found holds (s.tags set)) victim lqe s.stats
    return s.apply set (((s.tags set).findIdx? holds).getD 0) o

def processRequest (cfg : L2Config C) (t : Nat) (s : CacheL2 C) (lqe : Lqe C) :
    Except Abort (CacheL2 C × Effects C) := do
  let set := cfg.setOf lqe.address
  let holds := holdsForRequest (cfg.tagOf lqe.address)
  let o ← request cfg t set (found holds (s.tags set)) lqe s.stats
  return s.apply set (((s.tags set).findIdx? holds).getD 0) o

def processRequests (cfg : L2Config C) (t : Nat) :
    CacheL2 C → List (Lqe C) → Except Abort (CacheL2 C × Effects C)
  | s, [] => .ok (s, {})
  | s, lqe :: rest => do
    let (s, a) ← processRequest cfg t s lqe
    let (s, b) ← processRequests cfg t s rest
    return (s, { calls := a.calls ++ b.calls, deleted := a.deleted ++ b.deleted })

def enqueue (cfg : L2Config C) (qs : Nat → List (Lqe C)) (lqe : Lqe C) : Nat → List (Lqe C) :=
  let bank := (lqe.address >>> cfg.setLsb) % cfg.numBanks
  Function.update qs bank (qs bank ++ [lqe])

def takeEvents (cfg : L2Config C) (t : Nat) (s : CacheL2 C) : CacheL2 C :=
  { s with
    repEvent := s.repEvent.dropWhile (fun e => e.1 = t)
    reqEvent := s.reqEvent.dropWhile (fun e => e.1 = t)
    repQ := s.repQ ++ (Multimap.front t s.repEvent).map (·.2)
    reqQs := ((Multimap.front t s.reqEvent).map (·.2)).foldl (enqueue cfg) s.reqQs }

def frontRequests (cfg : L2Config C) (s : CacheL2 C) : List (Lqe C) :=
  (List.range cfg.numBanks).filterMap fun bank => (s.reqQs bank).head?

def serve (cfg : L2Config C) (t : Nat) (s : CacheL2 C) : Except Abort (CacheL2 C × Effects C) :=
  match s.repQ with
  | lqe :: repQ => processReply cfg t { s with repQ } lqe
  | [] =>
    match s.frontRequests cfg with
    | [] => .error .fatal
    | requests => processRequests cfg t { s with reqQs := fun bank => (s.reqQs bank).tail } requests

def anyQueued (cfg : L2Config C) (s : CacheL2 C) : Bool :=
  !s.repQ.isEmpty || (List.range cfg.numBanks).any fun bank => !(s.reqQs bank).isEmpty

/-- `CacheL2::process_event`. The last component is the tick the cache asks to be woken at. -/
def processEvent (cfg : L2Config C) (t : Nat) (s : CacheL2 C) :
    Except Abort (CacheL2 C × Effects C × Option Nat) := do
  let (s, effects) ← serve cfg t (s.takeEvents cfg t)
  return (s, effects, if s.anyQueued cfg then some (t + cfg.processInterval) else none)

end Process
end CacheL2
end McSim
