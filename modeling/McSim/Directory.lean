import McSim.Component
import McSim.Lib.Multimap
import Mathlib.Logic.Function.Basic

/-! The directory.
Handlers act on the entry of one line, `none` where the map has no such key, and return the
entry afterwards, the calls on neighbours and the elements deleted. The directory cache decides
in front of them whether a message is served, held back or refused. -/

namespace McSim

variable {C : Type}

structure DirEntry (C : Type) where
  type : CoherenceState := .invalid
  sharedL2 : Finset C := ∅
  pending : Option (Lqe C) := none
  gotCl : Bool := false
  notInDc : Bool := false
  numSharer : Nat := 0

structure DirStats where
  numAcc : Nat := 0
  numNack : Nat := 0
  numIToTr : Nat := 0
  numEToTr : Nat := 0
  numSToTr : Nat := 0
  numMToTr : Nat := 0
  numMToI : Nat := 0
  numTrToI : Nat := 0
  numTrToE : Nat := 0
  numTrToS : Nat := 0
  numTrToM : Nat := 0
  numEvict : Nat := 0
  numInvalidate : Nat := 0
  numFromMc : Nat := 0
  numDirCacheMiss : Nat := 0
  numDirCacheRetry : Nat := 0
  numDirEvict : Nat := 0
  numSharerHistogram : Nat → Nat := fun _ => 0

/-- `num_sets` is a divisor; `l2s` are the second-level caches of the machine, each once, and the
directory is none of them. -/
structure DirConfig (C : Type) where
  self : C
  cachel2 : C
  crossbar : C
  crossbar_ne : crossbar ≠ cachel2
  memoryController : C
  l2s : List C
  l2s_nodup : l2s.Nodup
  self_notMem : self ∉ l2s
  setLsb : Nat
  numSets : Nat
  numSets_pos : 0 < numSets
  numWays : Nat
  dirToMcT : Nat
  dirToL2T : Nat
  dirToXbarT : Nat
  numFlitsPerPacket : Nat
  hasDirectoryCache : Bool
  useLimitless : Bool
  limitlessBroadcastThreshold : Nat
  processInterval : Nat

def DirConfig.lineOf (cfg : DirConfig C) (address : Nat) : Nat := address >>> cfg.setLsb

namespace Directory

/-- What a handler does to the entry of its line, and besides. `readsAddress` is ghost: whether a
request is served by messages that are made with `address`. -/
structure Outcome (C : Type) where
  entry : Option (DirEntry C)
  calls : List (Call C) := []
  deleted : List (Lqe C) := []
  stats : DirStats
  readsAddress : Bool := false

def toMc (cfg : DirConfig C) (t : Nat) (lqe : Lqe C) : Call C :=
  { callee := cfg.memoryController, kind := .req, time := t + cfg.dirToMcT, lqe }

def toL2 (cfg : DirConfig C) (t : Nat) (lqe : Lqe C) : Call C :=
  { callee := cfg.cachel2, kind := .rep, time := t + cfg.dirToL2T, lqe }

def flitsOf (cfg : DirConfig C) (isData : Bool) : Option Nat :=
  if isData then some cfg.numFlitsPerPacket else none

/-- The states in which an entry waits for something. -/
def transient : CoherenceState → Bool
  | .trToS | .trToM | .trToI | .trToE | .mToS => true
  | _ => false

/-- The counter of the most sharers an erased entry had. -/
def retire (st : DirStats) (e : DirEntry C) : DirStats :=
  { st with numSharerHistogram :=
      Function.update st.numSharerHistogram e.numSharer (st.numSharerHistogram e.numSharer + 1) }

section Handlers
variable [LinearOrder C]

/-- `add_event_to_UL(curr_time, lqe, is_data)`: the crossbar finds its target on the stack. -/
def addEventToUL (cfg : DirConfig C) (t : Nat) (lqe : Lqe C) (isData : Bool) :
    Except Abort (Call C) := do
  let top ← lqe.top
  return if top = cfg.cachel2 then toL2 cfg t lqe
    else { callee := cfg.crossbar, kind := .crq, time := t + cfg.dirToXbarT
           lqe := lqe.push top, flits := flitsOf cfg isData }

def addEventToComp (cfg : DirConfig C) (t : Nat) (comp : C) (lqe : Lqe C) : Call C :=
  if comp = cfg.cachel2 then toL2 cfg t lqe
  else { callee := cfg.crossbar, kind := .crq, time := t + cfg.dirToXbarT, lqe := lqe.push comp }

def addEventToULpp (cfg : DirConfig C) (t : Nat) (lqe : Lqe C) (isData : Bool) :
    Except Abort (Call C) := do
  let top ← lqe.top
  return if top = cfg.cachel2 then toL2 cfg t lqe
    else { callee := cfg.crossbar, kind := .rep, time := t + cfg.dirToXbarT
           lqe, flits := flitsOf cfg isData }

/-- `et_evict`, and `et_rd_dir_info_rep` where the directory cache lets it pass -/
def repEvict (cfg : DirConfig C) (t : Nat) (e : DirEntry C) (lqe : Lqe C) (st : DirStats) :
    Except Abort (Outcome C) :=
  let st := { st with numEvict := st.numEvict + 1 }
  match e.type with
  | .modified | .mToS => do
    if e.sharedL2.card > 1 then .error .fatal
    else
      let top ← lqe.top
      if top ∉ e.sharedL2 then return { entry := some e, deleted := [lqe], stats := st }
      else
        let write := toMc cfg t (lqe.push cfg.self)
        if e.type = .modified then return {
          entry := none, calls := [write]
          stats := retire { st with numMToI := st.numMToI + 1 } e }
        else return {
          entry := some { e with sharedL2 := e.sharedL2.erase top }, calls := [write], stats := st }
  | .trToS => do
    let top ← lqe.top
    return {
      entry := some { e with sharedL2 := e.sharedL2.erase top }, deleted := [lqe], stats := st }
  | .trToM => return { entry := some e, deleted := [lqe], stats := st }
  | _ => do
    let top ← lqe.top
    if e.sharedL2.erase top = ∅ then
      return { entry := none, deleted := [lqe], stats := retire st e }
    else return {
      entry := some { e with sharedL2 := e.sharedL2.erase top }, deleted := [lqe], stats := st }

/-- `et_e_to_i` and `et_e_to_m` -/
def repEToX (found : Option (DirEntry C)) (lqe : Lqe C) (st : DirStats) :
    Except Abort (Outcome C) :=
  match found with
  | none => return { entry := none, deleted := [lqe], stats := st }
  | some e =>
    if e.type ≠ .trToM then .error .fatal
    else if lqe.type = .eToI then return {
      entry := none, deleted := [lqe]
      stats := retire { st with numTrToI := st.numTrToI + 1 } e }
    else return {
      entry := some { e with type := .modified, pending := none }, deleted := [lqe]
      stats := { st with numTrToM := st.numTrToM + 1 } }

/-- The last answer to an invalidation lets the held request go on, with the data that came or
by a read of the memory. -/
def resume (cfg : DirConfig C) (t : Nat) (e : DirEntry C) (pending lqe : Lqe C) (st : DirStats) :
    Except Abort (Outcome C) := do
  let top ← pending.top
  let e := { e with sharedL2 := insert top e.sharedL2, pending := none }
  if e.gotCl then
    let grant ← addEventToUL cfg t pending true
    return {
      entry := some { e with type := .modified, gotCl := false }
      calls := [grant], deleted := [lqe]
      stats := { st with numTrToM := st.numTrToM + 1 } }
  else return {
    entry := some e
    calls := [toMc cfg t { pending.push cfg.self with type := .eRd }]
    deleted := [lqe], stats := st }

def repInvalidate (cfg : DirConfig C) (t : Nat) (found : Option (DirEntry C)) (lqe : Lqe C)
    (st : DirStats) : Except Abort (Outcome C) :=
  match found with
  | none => return { entry := none, deleted := [lqe], stats := st }
  | some e =>
    if e.type ≠ .trToM then .error .fatal
    else do
      let lqe ← lqe.pop
      let top ← lqe.top
      let e := { e with
        gotCl := lqe.type = EventType.invalidate || e.gotCl, sharedL2 := e.sharedL2.erase top }
      match e.pending with
      | none => .error .fatal
      | some pending =>
        if e.sharedL2 = ∅ then resume cfg t e pending lqe st
        else return { entry := some e, deleted := [lqe], stats := st }

/-- `et_e_to_s_nd`, `et_s_to_s_nd` and `et_dir_rd_nd`: the data was gone. -/
def repNd (cfg : DirConfig C) (t : Nat) (found : Option (DirEntry C)) (lqe : Lqe C)
    (st : DirStats) : Except Abort (Outcome C) :=
  match found with
  | none => .error .fatal
  | some e =>
    if e.type ≠ .trToS ∧ e.type ≠ .mToS then .error .fatal
    else
      match e.pending with
      | none => .error .undefined
      | some pending => do
        let st := { st with numTrToS := st.numTrToS + 1, numNack := st.numNack + 1 }
        let nack ← addEventToULpp cfg t { pending with type := .nack } false
        if e.sharedL2 = ∅ then return {
          entry := none, calls := [nack], deleted := [lqe], stats := retire st e }
        else return {
          entry := some { e with type := .shared, pending := none }
          calls := [nack], deleted := [lqe], stats := st }

def writeBack (cfg : DirConfig C) (t : Nat) (lqe : Lqe C) : List (Call C) :=
  if lqe.type = .dirRd then [toMc cfg t (Lqe.new cfg.self .evict lqe.address lqe.thId)] else []

/-- `et_e_to_s`, `et_s_to_s` and `et_dir_rd`: the data goes to the request that waits. -/
def repData (cfg : DirConfig C) (t : Nat) (found : Option (DirEntry C)) (lqe : Lqe C)
    (st : DirStats) : Except Abort (Outcome C) :=
  match found with
  | none => .error .fatal
  | some e =>
    if e.type ≠ .mToS ∧ e.type ≠ .trToS then .error .fatal
    else
      match e.pending with
      | none => .error .undefined
      | some pending => do
        let top ← pending.top
        let grant ← addEventToUL cfg t { pending with type := .sRd } true
        let sharedL2 := insert top e.sharedL2
        return {
          entry := some { e with
            type := .shared, sharedL2, pending := none, numSharer := max sharedL2.card e.numSharer }
          calls := writeBack cfg t lqe ++ [grant]
          deleted := [lqe]
          stats := { st with numTrToS := st.numTrToS + 1 } }

def repFromMc (cfg : DirConfig C) (t : Nat) (found : Option (DirEntry C)) (lqe : Lqe C)
    (st : DirStats) : Except Abort (Outcome C) := do
  let st := { st with numFromMc := st.numFromMc + 1 }
  let lqe ← lqe.pop
  match found.filter (fun e => lqe.type = .eRd ∧ (e.type = .trToE ∨ e.type = .trToM)) with
  | none =>
    let call ← addEventToULpp cfg t lqe true
    return { entry := found, calls := [call], stats := st }
  | some e =>
    if e.type = .trToE then
      let call ← addEventToULpp cfg t lqe true
      return {
        entry := some { e with type := .exclusive }, calls := [call]
        stats := { st with numTrToE := st.numTrToE + 1 } }
    else
      let call ← addEventToULpp cfg t { lqe with type := .write } true
      return {
        entry := some { e with type := .modified }, calls := [call]
        stats := { st with numTrToM := st.numTrToM + 1 } }

/-- The reply half of `process_event`, by event type; evictions find an entry. -/
def reply (cfg : DirConfig C) (t : Nat) (found : Option (DirEntry C)) (lqe : Lqe C)
    (st : DirStats) : Except Abort (Outcome C) :=
  match lqe.type with
  | .evict | .rdDirInfoRep =>
    match found with
    | none => return { entry := none, deleted := [lqe], stats := st }
    | some e => repEvict cfg t e lqe st
  | .eToI | .eToM => repEToX found lqe st
  | .invalidate | .invalidateNd => repInvalidate cfg t found lqe st
  | .eToSNd | .sToSNd | .dirRdNd => repNd cfg t found lqe st
  | .eToS | .sToS | .dirRd => repData cfg t found lqe st
  | _ => repFromMc cfg t found lqe st

def reqNew (cfg : DirConfig C) (t : Nat) (lqe : Lqe C) (st : DirStats) :
    Except Abort (Outcome C) := do
  let top ← lqe.top
  return {
    entry := some {
      type := if lqe.type = .read then .trToE else .trToM, sharedL2 := {top}, numSharer := 1 }
    calls := [toMc cfg t { lqe.push cfg.self with type := .eRd }]
    stats := { st with numIToTr := st.numIToTr + 1 } }

/-- `req_lqe->type = et_nack` and back with it -/
def nack (cfg : DirConfig C) (t : Nat) (e : DirEntry C) (lqe : Lqe C) (st : DirStats) :
    Except Abort (Outcome C) := do
  let call ← addEventToULpp cfg t { lqe with type := .nack } false
  return { entry := some e, calls := [call], stats := { st with numNack := st.numNack + 1 } }

def askOwner (cfg : DirConfig C) (t : Nat) (e : DirEntry C) (lqe : Lqe C) (type : CoherenceState)
    (etype : EventType) (owner : C) (st : DirStats) : Outcome C :=
  { entry := some { e with type, pending := some lqe }
    calls := [addEventToComp cfg t owner (Lqe.new cfg.self etype lqe.address lqe.thId)]
    stats := st
    readsAddress := true }

def reqRead (cfg : DirConfig C) (t : Nat) (e : DirEntry C) (lqe : Lqe C) (st : DirStats) :
    Except Abort (Outcome C) := do
  let top ← lqe.top
  if top ∈ e.sharedL2 then nack cfg t e lqe st
  else if e.type = .exclusive ∨ e.type = .modified then
    if e.sharedL2.card ≠ 1 then .error .fatal
    else
      match first e.sharedL2 with
      | none => .error .undefined
      | some owner =>
        if e.type = .exclusive then
          return askOwner cfg t e lqe .trToS .eToS owner { st with numEToTr := st.numEToTr + 1 }
        else
          return askOwner cfg t e lqe .mToS .dirRd owner { st with numMToTr := st.numMToTr + 1 }
  else if e.type = .shared then
    match first e.sharedL2 with
    | none => .error .undefined
    | some owner =>
      return askOwner cfg t e lqe .trToS .sToS owner { st with numSToTr := st.numSToTr + 1 }
  else .error .fatal

/-- An invalidation names its L2 below the directory. -/
def invalidation (cfg : DirConfig C) (t : Nat) (lqe : Lqe C) (c : C) (type : EventType) : Call C :=
  addEventToComp cfg t c ((Lqe.new c type lqe.address lqe.thId).push cfg.self)

/-- The invalidations of a shared line: only the first sharer returns its data. -/
def invalidations (cfg : DirConfig C) (t : Nat) (e : DirEntry C) (lqe : Lqe C) : List (Call C) :=
  if cfg.useLimitless ∧ cfg.limitlessBroadcastThreshold < e.sharedL2.card then
    cfg.l2s.map fun c => invalidation cfg t lqe c
      (if first e.sharedL2 = some c then .invalidate
        else if c ∈ e.sharedL2 then .invalidateNd else .nop)
  else
    (inOrder e.sharedL2).map fun c => invalidation cfg t lqe c
      (if first e.sharedL2 = some c then .invalidate else .invalidateNd)

def reqWrite (cfg : DirConfig C) (t : Nat) (e : DirEntry C) (lqe : Lqe C) (st : DirStats) :
    Except Abort (Outcome C) :=
  match e.type with
  | .exclusive =>
    if e.sharedL2.card ≠ 1 then .error .fatal
    else do
      let top ← lqe.top
      if top ∈ e.sharedL2 then
        let call ← addEventToULpp cfg t { lqe with type := .writeNd } false
        return {
          entry := some { e with type := .trToM }, calls := [call]
          stats := { st with numEToTr := st.numEToTr + 1 } }
      else
        match first e.sharedL2 with
        | none => .error .undefined
        | some owner => return {
          entry := some { e with type := .trToM, pending := some lqe, gotCl := false }
          calls := [invalidation cfg t lqe owner .invalidate]
          stats := { st with
            numEToTr := st.numEToTr + 1, numInvalidate := st.numInvalidate + 1 }
          readsAddress := true }
  | .shared =>
    if e.sharedL2 = ∅ then .error .fatal
    else
      let calls := invalidations cfg t e lqe
      return {
        entry := some { e with type := .trToM, pending := some lqe }
        calls
        stats := { st with
          numSToTr := st.numSToTr + 1, numInvalidate := st.numInvalidate + calls.length }
        readsAddress := true }
  | .modified =>
    if e.pending ≠ none ∨ e.sharedL2.card ≠ 1 then .error .fatal
    else do
      let top ← lqe.top
      if top ∈ e.sharedL2 then
        let call ← addEventToUL cfg t { lqe with type := .nack } false
        return { entry := some e, calls := [call], stats := { st with numNack := st.numNack + 1 } }
      else
        match first e.sharedL2 with
        | none => .error .undefined
        | some owner => return {
          entry := some { e with type := .trToM, pending := some lqe }
          calls := [invalidation cfg t lqe owner .invalidate]
          stats := { st with
            numMToTr := st.numMToTr + 1, numInvalidate := st.numInvalidate + 1 }
          readsAddress := true }
  | _ => .error .fatal

/-- The request half of `process_event`, once the directory cache has let it pass. -/
def request (cfg : DirConfig C) (t : Nat) (found : Option (DirEntry C)) (lqe : Lqe C)
    (st : DirStats) : Except Abort (Outcome C) :=
  match found with
  | none => reqNew cfg t lqe st
  | some e =>
    if transient e.type then nack cfg t e lqe st
    else if lqe.type = .read then reqRead cfg t e lqe st
    else if lqe.type = .write then reqWrite cfg t e lqe st
    else .error .fatal

end Handlers
end Directory

/-- The map `dir`, the directory cache with the most recent key of a set first, and the events. -/
structure Directory (C : Type) where
  dir : Nat → Option (DirEntry C) := fun _ => none
  dirCache : Nat → List Nat := fun _ => []
  reqEvent : List (Nat × Lqe C) := []
  repEvent : List (Nat × Lqe C) := []
  reqQ : List (Lqe C) := []
  repQ : List (Lqe C) := []
  stats : DirStats := {}

namespace Directory

def addReqEvent (cfg : DirConfig C) (s : Directory C) (t : Nat) (lqe : Lqe C) : Directory C :=
  { s with reqEvent := Multimap.insert (ceilByY t cfg.processInterval) lqe s.reqEvent }

/-- Directory information that a request waits for comes back as a request. -/
def addRepEvent (cfg : DirConfig C) (s : Directory C) (t : Nat) (lqe : Lqe C) : Directory C :=
  if lqe.type = .rdDirInfoReq then s.addReqEvent cfg t lqe
  else { s with repEvent := Multimap.insert (ceilByY t cfg.processInterval) lqe s.repEvent }

/-- What a step does besides changing the directory; `wakeups` are its own `add_event` calls. -/
structure Effects (C : Type) where
  calls : List (Call C) := []
  deleted : List (Lqe C) := []
  wakeups : List Nat := []

/-- What the directory cache decides: it has dealt with the message, or the message goes on. -/
inductive Stage (C : Type)
  | stop (s : Directory C) (effects : Effects C)
  | go (s : Directory C) (lqe : Lqe C) (calls : List (Call C)) (deleted : List (Lqe C))

/-- The first key of a set that may be displaced; `dir[*iter]` makes an entry where there is
none. -/
def scanVictim (dir : Nat → Option (DirEntry C)) :
    List Nat → (Nat → Option (DirEntry C)) × Option Nat
  | [] => (dir, none)
  | key :: keys =>
    let e := (dir key).getD {}
    let dir := Function.update dir key (some e)
    if transient e.type || e.pending.isSome || e.notInDc then scanVictim dir keys
    else (dir, some key)

def setEntry (s : Directory C) (line : Nat) (e : Option (DirEntry C)) : Directory C :=
  { s with dir := Function.update s.dir line e }

def setCache (s : Directory C) (set : Nat) (keys : List Nat) : Directory C :=
  { s with dirCache := Function.update s.dirCache set keys }

def retry (cfg : DirConfig C) (s : Directory C) (t : Nat) (lqe : Lqe C) : Stage C :=
  .stop (s.addRepEvent cfg t lqe) { wakeups := [ceilByY t cfg.processInterval] }

/-- `LocalQueueElement(this, type, address)` on its way to the memory -/
def infoMessage (cfg : DirConfig C) (t : Nat) (type : EventType) (address : Nat) : Call C :=
  toMc cfg t (Lqe.new cfg.self type address 0)

def cacheOnReply (cfg : DirConfig C) (t : Nat) (s : Directory C) (e : DirEntry C) (lqe : Lqe C) :
    Stage C :=
  let line := cfg.lineOf lqe.address
  let set := line % cfg.numSets
  let keys := s.dirCache set
  if cfg.hasDirectoryCache = false then .go s lqe [] []
  else if line ∈ keys then
    let s := s.setCache set (line :: keys.erase line)
    if lqe.type = .rdDirInfoRep then
      .stop (s.setEntry line (some { e with notInDc := false })) { deleted := [lqe] }
    else if e.notInDc then retry cfg s (t + 100 * cfg.processInterval) lqe
    else .go s lqe [] []
  else
    let st := { s.stats with numDirCacheMiss := s.stats.numDirCacheMiss + 1 }
    let st' := { st with numDirCacheRetry := st.numDirCacheRetry + 1 }
    let info := infoMessage cfg t .rdDirInfoRep lqe.address
    if keys.length = cfg.numWays then
      match scanVictim s.dir keys with
      | (dir, none) => retry cfg { s with dir, stats := st' } (t + 2 * cfg.processInterval) lqe
      | (dir, some victim) =>
        let s := { s with dir, stats := { st' with numDirEvict := st.numDirEvict + 1 } }
        .go ((s.setCache set (line :: keys.erase victim)).setEntry line
          (some { e with notInDc := true }))
          lqe [infoMessage cfg t .dirEvict lqe.address, info] []
    else
      .go (({ s with stats := st' }.setCache set (line :: keys)).setEntry line
        (some { e with notInDc := true })) lqe [info] []

section Process
variable [LinearOrder C]

def refuse (cfg : DirConfig C) (t : Nat) (s : Directory C) (lqe : Lqe C) :
    Except Abort (Stage C) := do
  let call ← addEventToULpp cfg t { lqe with type := .nack } false
  let stats := { s.stats with numNack := s.stats.numNack + 1 }
  return .stop { s with stats } { calls := [call] }

def cacheOnNew (cfg : DirConfig C) (t : Nat) (s : Directory C) (lqe : Lqe C) :
    Except Abort (Stage C) :=
  let line := cfg.lineOf lqe.address
  let set := line % cfg.numSets
  let keys := s.dirCache set
  if cfg.hasDirectoryCache = false then return .go s lqe [] []
  else
    let s := { s with stats := { s.stats with numDirCacheMiss := s.stats.numDirCacheMiss + 1 } }
    if keys.length = cfg.numWays then
      match scanVictim s.dir keys with
      | (dir, none) => refuse cfg t { s with dir } lqe
      | (dir, some victim) =>
        let s := { s with dir, stats := { s.stats with numDirEvict := s.stats.numDirEvict + 1 } }
        return .go (s.setCache set (line :: keys.erase victim)) lqe
          [infoMessage cfg t .dirEvict lqe.address] []
    else return .go (s.setCache set (line :: keys)) lqe [] []

def cacheOnFound (cfg : DirConfig C) (t : Nat) (s : Directory C) (e : DirEntry C) (lqe : Lqe C) :
    Except Abort (Stage C) :=
  let line := cfg.lineOf lqe.address
  let set := line % cfg.numSets
  let keys := s.dirCache set
  if cfg.hasDirectoryCache = false then return .go s lqe [] []
  else if line ∈ keys then
    let s := s.setCache set (line :: keys.erase line)
    if lqe.type = .rdDirInfoReq then
      match e.pending with
      | none => .error .undefined
      | some pending =>
        return .go (s.setEntry line (some { e with pending := none, notInDc := false }))
          pending [] [lqe]
    else if e.pending ≠ none then refuse cfg t s lqe
    else return .go s lqe [] []
  else
    let s := { s with stats := { s.stats with numDirCacheMiss := s.stats.numDirCacheMiss + 1 } }
    let held := some { e with pending := some lqe, notInDc := true }
    let info := infoMessage cfg t .rdDirInfoReq lqe.address
    if lqe.type = .rdDirInfoReq then .error .fatal
    else if keys.length = cfg.numWays then
      match scanVictim s.dir keys with
      | (dir, none) => refuse cfg t { s with dir } lqe
      | (dir, some victim) =>
        let s := ({ s with dir }.setCache set (line :: keys.erase victim)).setEntry line held
        return .stop s { calls := [infoMessage cfg t .evict lqe.address, info] }
    else return .stop ((s.setCache set (line :: keys)).setEntry line held) { calls := [info] }

def cacheOnRequest (cfg : DirConfig C) (t : Nat) (s : Directory C) (lqe : Lqe C) :
    Except Abort (Stage C) :=
  match s.dir (cfg.lineOf lqe.address) with
  | none => cacheOnNew cfg t s lqe
  | some e => cacheOnFound cfg t s e lqe

/-- Keep what a handler returns; an entry that is erased leaves the directory cache too. -/
def apply (cfg : DirConfig C) (s : Directory C) (line : Nat) (o : Outcome C) : Directory C :=
  let s := { s.setEntry line o.entry with stats := o.stats }
  let set := line % cfg.numSets
  if o.entry.isNone ∧ cfg.hasDirectoryCache then s.setCache set ((s.dirCache set).erase line) else s

def serveReply (cfg : DirConfig C) (t : Nat) (s : Directory C) (lqe : Lqe C)
    (calls : List (Call C)) :
    Except Abort (Directory C × Effects C) := do
  let o ← reply cfg t (s.dir (cfg.lineOf lqe.address)) lqe s.stats
  return (s.apply cfg (cfg.lineOf lqe.address) o,
    { calls := calls ++ o.calls, deleted := o.deleted })

def serveRequest (cfg : DirConfig C) (t : Nat) (s : Directory C) (lqe : Lqe C)
    (calls : List (Call C)) (deleted : List (Lqe C)) : Except Abort (Directory C × Effects C) := do
  let o ← request cfg t (s.dir (cfg.lineOf lqe.address)) lqe s.stats
  -- `address` refers into the message that has brought the directory information, which is deleted
  if !deleted.isEmpty && o.readsAddress then .error .undefined
  else return (s.apply cfg (cfg.lineOf lqe.address) o,
    { calls := calls ++ o.calls, deleted := deleted ++ o.deleted })

def throughCache : EventType → Bool
  | .evict | .rdDirInfoRep => true
  | _ => false

def processReply (cfg : DirConfig C) (t : Nat) (s : Directory C) (lqe : Lqe C) :
    Except Abort (Directory C × Effects C) :=
  match s.dir (cfg.lineOf lqe.address) with
  | none => serveReply cfg t s lqe []
  | some e =>
    if throughCache lqe.type then
      match cacheOnReply cfg t s e lqe with
      | .stop s effects => return (s, effects)
      | .go s lqe calls _ => serveReply cfg t s lqe calls
    else serveReply cfg t s lqe []

def processRequest (cfg : DirConfig C) (t : Nat) (s : Directory C) (lqe : Lqe C) :
    Except Abort (Directory C × Effects C) := do
  let stage ← cacheOnRequest cfg t s lqe
  match stage with
  | .stop s effects => return (s, effects)
  | .go s lqe calls deleted => serveRequest cfg t s lqe calls deleted

def takeEvents (t : Nat) (s : Directory C) : Directory C :=
  { s with
    repEvent := s.repEvent.dropWhile (fun e => e.1 = t)
    reqEvent := s.reqEvent.dropWhile (fun e => e.1 = t)
    repQ := s.repQ ++ (Multimap.front t s.repEvent).map (·.2)
    reqQ := s.reqQ ++ (Multimap.front t s.reqEvent).map (·.2)
    stats := { s.stats with numAcc := s.stats.numAcc + 1 } }

def serve (cfg : DirConfig C) (t : Nat) (s : Directory C) :
    Except Abort (Directory C × Effects C) :=
  let wake := fun (s : Directory C) (r : Directory C × Effects C) =>
    if s.repQ.isEmpty && s.reqQ.isEmpty then r
    else (r.1, { r.2 with wakeups := (t + cfg.processInterval) :: r.2.wakeups })
  match s.repQ, s.reqQ with
  | lqe :: repQ, _ => do
    let r ← processReply cfg t { s with repQ } lqe
    return wake { s with repQ } r
  | [], lqe :: reqQ => do
    let r ← processRequest cfg t { s with reqQ } lqe
    return wake { s with reqQ } r
  | [], [] => .error .fatal

/-- `Directory::process_event` -/
def processEvent (cfg : DirConfig C) (t : Nat) (s : Directory C) :
    Except Abort (Directory C × Effects C) :=
  serve cfg t (s.takeEvents t)

end Process
end Directory
end McSim
