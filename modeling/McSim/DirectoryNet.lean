import McSim.DirectoryCache

/-! A directory among its second-level caches.
The caches are an environment: each talks to the directory over FIFO channels, asks for lines,
sends `et_evict` at most once after each grant, and answers every demand of the directory once,
with the form that carries no data when it no longer holds the line. The memory controller
answers every read once, in any order, and so it does reads of directory information; what the
directory cache puts back is taken again, whenever that is. -/

namespace McSim

variable {C : Type}

inductive Route (C : Type)
  | l2 (c : C) (lqe : Lqe C)
  | memory (lqe : Lqe C)
  | nowhere

section
variable [DecidableEq C]

/-- A coherence request is popped by the crossbar, a reply goes to the top of its stack. -/
def route (cfg : DirConfig C) (call : Call C) : Route C :=
  match call.kind with
  | .req => .memory call.lqe
  | .crq =>
    match call.lqe.path with
    | [] => .nowhere
    | c :: path => .l2 c { call.lqe with path }
  | .rep =>
    if call.callee = cfg.crossbar then
      match call.lqe.path with
      | [] => .nowhere
      | c :: _ => .l2 c call.lqe
    else .l2 call.callee call.lqe

end

inductive Demand
  | data | inval | upgrade
deriving DecidableEq

def demandOf : EventType → Option Demand
  | .eToS | .sToS | .dirRd | .eToSNd | .sToSNd | .dirRdNd => some .data
  | .invalidate | .invalidateNd => some .inval
  | .writeNd | .eToM | .eToI => some .upgrade
  | _ => none

def isGrant : EventType → Bool
  | .eRd | .sRd | .write => true
  | _ => false

def carriesData : EventType → Bool
  | .eToS | .sToS | .dirRd | .invalidate => true
  | _ => false

/-- `down`, `reqUp` and `repUp` are the channels, `todo` the demands an L2 has yet to answer,
`mc` the reads, `infos` those of directory information and `written` the writes the memory
controller has got. An L2 has `modified` from
the grant of a line as `cs_modified` until it returns the data; `senders` are the L2s that have
sent such a line as `et_evict`, and the place there is the `serial` of the message. -/
structure Net (C : Type) where
  dir : Directory C := {}
  down : C → List (Lqe C) := fun _ => []
  todo : C → List (Lqe C) := fun _ => []
  reqUp : C → List (Lqe C) := fun _ => []
  repUp : C → List (Lqe C) := fun _ => []
  mc : List (Lqe C) := []
  infos : List (Lqe C) := []
  written : List (Lqe C) := []
  holds : C → Nat → Bool := fun _ _ => false
  mayEvict : C → Nat → Bool := fun _ _ => false
  modified : C → Nat → Bool := fun _ _ => false
  senders : List C := []

/-- What a run may be restricted by: the directory takes a reply, one that it has put back or what
it has read for a request, or an L2 answers a demand. -/
inductive Act (C : Type)
  | takes (c : C) (lqe : Lqe C)
  | again (lqe : Lqe C)
  | informs (lqe : Lqe C)
  | answers (c : C) (lqe : Lqe C)

namespace Net
variable [LinearOrder C]

def send (cfg : DirConfig C) (s : Net C) (call : Call C) : Net C :=
  match route cfg call with
  | .l2 c lqe => { s with down := Function.update s.down c (s.down c ++ [lqe]) }
  | .memory lqe =>
    if lqe.type = .eRd then { s with mc := s.mc ++ [lqe] }
    else if isInfo lqe.type then { s with infos := s.infos ++ [lqe] }
    else { s with written := s.written ++ [lqe] }
  | .nowhere => s

def sendAll (cfg : DirConfig C) (s : Net C) (calls : List (Call C)) :
    Net C := calls.foldl (send cfg) s

def setFlag (f : C → Nat → Bool) (c : C) (line : Nat) (b : Bool) : C → Nat → Bool :=
  fun c' line' => if c' = c ∧ line' = line then b else f c' line'

/-- The L2 takes the head of its channel: a grant, a demand, or a message it ignores. -/
def receive (cfg : DirConfig C) (s : Net C) (c : C) (lqe : Lqe C) (rest : List (Lqe C)) : Net C :=
  let s := { s with down := Function.update s.down c rest }
  let line := cfg.lineOf lqe.address
  if isGrant lqe.type then
    { s with
      holds := setFlag s.holds c line true
      mayEvict := setFlag s.mayEvict c line true
      modified := if lqe.type = .write then setFlag s.modified c line true else s.modified }
  else if (demandOf lqe.type).isSome then
    { s with todo := Function.update s.todo c (s.todo c ++ [lqe]) }
  else s

/-- The answer to a demand, by whether the L2 holds the line. An upgrade is answered by a message
of its own. -/
def answerOf (c : C) (holds : Bool) (lqe : Lqe C) : Lqe C :=
  match lqe.type with
  | .writeNd => Lqe.new c (if holds then .eToM else .eToI) lqe.address lqe.thId
  | .eToS => { lqe with type := if holds then .eToS else .eToSNd }
  | .sToS => { lqe with type := if holds then .sToS else .sToSNd }
  | .dirRd => { lqe with type := if holds then .dirRd else .dirRdNd }
  | .invalidate => { lqe with type := if holds then .invalidate else .invalidateNd }
  | _ => lqe

def answer (cfg : DirConfig C) (s : Net C) (c : C) (i : Nat) (lqe : Lqe C) : Net C :=
  let line := cfg.lineOf lqe.address
  let reply := answerOf c (s.holds c line) lqe
  { s with
    todo := Function.update s.todo c ((s.todo c).eraseIdx i)
    repUp := Function.update s.repUp c (s.repUp c ++ [reply])
    holds := if demandOf lqe.type = some .inval then setFlag s.holds c line false else s.holds
    modified := if reply.type = .eToM then setFlag s.modified c line true
      else if carriesData reply.type then setFlag s.modified c line false else s.modified }

def evict (cfg : DirConfig C) (s : Net C) (c : C) (lqe : Lqe C) : Net C :=
  let line := cfg.lineOf lqe.address
  let serial := if s.modified c line then some s.senders.length else none
  { s with
    repUp := Function.update s.repUp c (s.repUp c ++ [{ lqe with serial }])
    holds := setFlag s.holds c line false
    mayEvict := setFlag s.mayEvict c line false
    modified := setFlag s.modified c line false
    senders := if s.modified c line then s.senders ++ [c] else s.senders }

def takeAgain (s : Net C) (i : Nat) : Net C :=
  { s with dir := { s.dir with repEvent := s.dir.repEvent.eraseIdx i } }

/-- One step of the directory or of its environment; `ok` restricts which replies and answers
there may be, by the state before the step. -/
inductive Step (cfg : DirConfig C) (ok : Net C → Act C → Prop) : Net C → Net C → Prop
  | request {s} (c : C) (lqe : Lqe C) : c ∈ cfg.l2s → lqe.path.head? = some c →
      (lqe.type = .read ∨ lqe.type = .write) →
      Step cfg ok s { s with reqUp := Function.update s.reqUp c (s.reqUp c ++ [lqe]) }
  | drop {s} (c : C) (line : Nat) : Step cfg ok s { s with holds := setFlag s.holds c line false }
  | evict {s} (c : C) (lqe : Lqe C) : lqe.path.head? = some c → lqe.type = .evict →
      s.mayEvict c (cfg.lineOf lqe.address) = true → Step cfg ok s (s.evict cfg c lqe)
  | receive {s} (c : C) (lqe : Lqe C) (rest : List (Lqe C)) : s.down c = lqe :: rest →
      Step cfg ok s (s.receive cfg c lqe rest)
  | answer {s} (c : C) (i : Nat) (lqe : Lqe C) : (s.todo c)[i]? = some lqe →
      ok s (.answers c lqe) → Step cfg ok s (s.answer cfg c i lqe)
  | reply {s dir effects} (c : C) (t : Nat) (lqe : Lqe C) (rest : List (Lqe C)) :
      s.repUp c = lqe :: rest → ok s (.takes c lqe) →
      s.dir.processReply cfg t lqe = .ok (dir, effects) →
      Step cfg ok s (sendAll cfg { s with dir, repUp := Function.update s.repUp c rest }
        effects.calls)
  | serve {s dir effects} (c : C) (t : Nat) (lqe : Lqe C) (rest : List (Lqe C)) :
      s.reqUp c = lqe :: rest → s.dir.processRequest cfg t lqe = .ok (dir, effects) →
      Step cfg ok s (sendAll cfg { s with dir, reqUp := Function.update s.reqUp c rest }
        effects.calls)
  | memory {s dir effects} (i t : Nat) (lqe : Lqe C) : s.mc[i]? = some lqe →
      s.dir.processReply cfg t lqe = .ok (dir, effects) →
      Step cfg ok s (sendAll cfg { s with dir, mc := s.mc.eraseIdx i } effects.calls)
  | again {s dir effects} (i t time : Nat) (lqe : Lqe C) : s.dir.repEvent[i]? = some (time, lqe) →
      ok s (.again lqe) → (s.takeAgain i).dir.processReply cfg t lqe = .ok (dir, effects) →
      Step cfg ok s (sendAll cfg { s with dir } effects.calls)
  | infoRequest {s dir effects} (i t : Nat) (lqe : Lqe C) : s.infos[i]? = some lqe →
      lqe.type = .rdDirInfoReq → ok s (.informs lqe) →
      s.dir.processRequest cfg t lqe = .ok (dir, effects) →
      Step cfg ok s (sendAll cfg { s with dir, infos := s.infos.eraseIdx i } effects.calls)
  | infoReply {s dir effects} (i t : Nat) (lqe : Lqe C) : s.infos[i]? = some lqe →
      lqe.type = .rdDirInfoRep → s.dir.processReply cfg t lqe = .ok (dir, effects) →
      Step cfg ok s (sendAll cfg { s with dir, infos := s.infos.eraseIdx i } effects.calls)

inductive Run (cfg : DirConfig C) (ok : Net C → Act C → Prop) : Net C → Prop
  | init : Run cfg ok {}
  | step {s s'} : Run cfg ok s → Step cfg ok s s' → Run cfg ok s'

end Net
end McSim
