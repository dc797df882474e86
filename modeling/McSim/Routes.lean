import McSim.CacheL2Conservation
import McSim.Lib.Inbox
import McSim.Machine

/-! What the stack of an element looks like on its way through a machine.
A request gathers the caches and the directory that it passes, and its answer takes them off again.
Everything about an address goes to one directory, its home. -/

namespace McSim

variable {C : Type}

/-- What the components are, the home of each address, and the cores that have sent requests -/
structure Routes (C : Type) where
  part : C → Part C
  home : Nat → C
  issuer : Nat → Option C

namespace Routes

variable (r : Routes C)

def IsL1Of (l2 c : C) : Prop := ∃ cfg n, r.part c = .cachel1 cfg n ∧ cfg.cachel2 = l2

def IsL2 (c : C) : Prop := ∃ cfg n, r.part c = .cachel2 cfg n

def IsDirectory (c : C) : Prop := ∃ cfg, r.part c = .directory cfg

def IsCrossbar (c : C) : Prop := ∃ cfg, r.part c = .crossbar cfg

/-- How the components are connected: whatever a neighbour is taken for, it is. -/
structure Laid : Prop where
  home : ∀ address, r.IsDirectory (r.home address)
  cachel1 : ∀ c cfg n, r.part c = .cachel1 cfg n → cfg.self = c ∧ r.IsL2 cfg.cachel2
  cachel2 : ∀ c cfg n, r.part c = .cachel2 cfg n →
    cfg.self = c ∧ r.IsDirectory cfg.directory ∧ r.IsCrossbar cfg.crossbar ∧
      ∀ address, cfg.whichMc address = cfg.directoryNum → cfg.directory = r.home address
  directory : ∀ c cfg, r.part c = .directory cfg →
    cfg.self = c ∧ r.IsL2 cfg.cachel2 ∧ (∀ l2 ∈ cfg.l2s, r.IsL2 l2) ∧ r.IsCrossbar cfg.crossbar ∧
      ∃ mc, r.part cfg.memoryController = .memoryController mc ∧ mc.directory = c
  crossbar : ∀ c cfg, r.part c = .crossbar cfg →
    ∀ address, cfg.directory (cfg.whichMc address) = r.home address
  memoryController : ∀ c cfg, r.part c = .memoryController cfg → r.IsDirectory cfg.directory

def Demand (serial : Option Nat) (path : List C) : Prop :=
  ∃ n core, serial = some n ∧ r.issuer n = some core ∧ r.part core = .core ∧ path = [core]

/-- A request of an L1, for a core or for itself -/
def Asked (l2 : C) (serial : Option Nat) (path : List C) : Prop :=
  ∃ l1 below, path = l1 :: below ∧ r.IsL1Of l2 l1 ∧
    (r.Demand serial below ∨ serial = none ∧ below = [])

def Missed (serial : Option Nat) (path : List C) : Prop :=
  ∃ l2 below, path = l2 :: below ∧ r.IsL2 l2 ∧ r.Asked l2 serial below

/-- What an L2 has the owner L1 bring back: the request of another L1, or nothing -/
def Lent (l2 : C) (serial : Option Nat) (path : List C) : Prop :=
  path = [] ∨ ∃ l1 below, path = l1 :: below ∧ r.IsL1Of l2 l1 ∧ r.Demand serial below

/-- What a directory passes on. A request for directory information may have lost its entry. -/
def Relayed (d : C) (serial : Option Nat) (path : List C) : Prop :=
  path = [] ∨ path = [d] ∨ r.Missed serial path

def Answer (core : C) (lqe : Lqe C) : Prop :=
  lqe.type ∈ [EventType.read, .write, .nack, .rdBypass] ∧
    ∃ n, lqe.serial = some n ∧ r.issuer n = some core ∧ lqe.path = [core]

def L1Request (lqe : Lqe C) : Prop :=
  (lqe.type = .read ∨ lqe.type = .write) ∧ r.Demand lqe.serial lqe.path

def L1Reply (l2 : C) (lqe : Lqe C) : Prop :=
  match lqe.type with
  | .nack | .rdBypass | .read | .write =>
    ∃ c below, lqe.path = c :: below ∧ r.Demand lqe.serial below
  | .mToS | .mToM => ∃ c below, lqe.path = c :: below ∧ r.Lent l2 lqe.serial below
  | .evict | .dirRd => True
  | _ => False

def L2Request (l2 : C) (lqe : Lqe C) : Prop :=
  (lqe.type = .read ∨ lqe.type = .write ∧ lqe.serial ≠ none) ∧ r.Asked l2 lqe.serial lqe.path

def asksL2 : EventType → Bool
  | .dirRd | .eToS | .sToS | .invalidate | .invalidateNd => true
  | _ => false

def L2Reply (l2 : C) (lqe : Lqe C) : Prop :=
  match lqe.type with
  | .eRd | .sRd | .read | .write | .nack =>
    ∃ below, lqe.path = l2 :: below ∧ r.Asked l2 lqe.serial below
  | .writeNd => ∃ below, lqe.path = l2 :: below ∧ lqe.serial ≠ none ∧ r.Asked l2 lqe.serial below
  | .mToS | .mToM => ∃ c below, lqe.path = c :: below ∧ r.Lent l2 lqe.serial below
  | .evict | .evictNd => ∃ l1 below, lqe.path = l1 :: below ∧ r.IsL1Of l2 l1
  | .dirRd | .eToS | .sToS | .invalidate | .invalidateNd =>
    lqe.path.head? = some (r.home lqe.address)
  | .nop => True
  | _ => False

/-- A request that a directory serves, or holds in the entry of its line -/
def DirDemand (d : C) (lqe : Lqe C) : Prop :=
  r.home lqe.address = d ∧ (lqe.type = .read ∨ lqe.type = .write ∧ lqe.serial ≠ none) ∧
    r.Missed lqe.serial lqe.path

def DirInfo (d : C) (lqe : Lqe C) : Prop :=
  r.home lqe.address = d ∧ lqe.type = .rdDirInfoReq ∧ lqe.path = [d]

def forLine : EventType → Bool
  | .evict | .rdDirInfoRep | .eToI | .eToM | .invalidate | .invalidateNd | .eToSNd
      | .sToSNd | .dirRdNd
  | .eToS | .sToS | .dirRd => true
  | _ => false

def relays : EventType → Bool
  | .eRd | .sRd | .write | .nack => true
  | _ => false

def DirReply (d : C) (lqe : Lqe C) : Prop :=
  r.home lqe.address = d ∧ (forLine lqe.type ∨ lqe.type = .rdDirInfoReq ∧ lqe.path = [d] ∨
    relays lqe.type ∧ ∃ below, lqe.path = d :: below ∧ r.Relayed d lqe.serial below)

def McMessage (d : C) (lqe : Lqe C) : Prop :=
  MemoryController.isEvict lqe.type ∨ lqe.type ≠ .sRdWr ∧ r.DirReply d lqe

/-- What a component takes that is no crossbar -/
def Takes (c : C) : Part C → CallKind → Lqe C → Prop
  | .core, _, lqe => r.Answer c lqe
  | .cachel1 _ _, .req, lqe => r.L1Request lqe
  | .cachel1 cfg _, .rep, lqe => r.L1Reply cfg.cachel2 lqe
  | .cachel2 _ _, .req, lqe => r.L2Request c lqe
  | .cachel2 _ _, .rep, lqe => r.L2Reply c lqe
  | .directory _, .req, lqe => r.DirDemand c lqe ∨ r.DirInfo c lqe
  | .directory _, .rep, lqe => r.DirReply c lqe
  | .memoryController cfg, .req, lqe => r.McMessage cfg.directory lqe
  | _, _, _ => False

def Arrives (c : C) (kind : CallKind) (lqe : Lqe C) : Prop := r.Takes c (r.part c) kind lqe

def handedAs : NocPriority → CallKind
  | .req => .req
  | .crq | .rep => .rep

/-- What may pass the crossbar: it arrives where the crossbar takes it. -/
def Passes (cfg : CrossbarConfig C) (cls : NocPriority) (lqe : Lqe C) : Prop :=
  ∀ d ∈ Crossbar.destination cfg cls lqe, r.Arrives d (handedAs cls) (Crossbar.carried cls lqe)

def FitsPart (call : Call C) : Part C → Prop
  | .crossbar cfg => r.Passes cfg (Part.priority call.kind) call.lqe
  | p => r.Takes call.callee p call.kind call.lqe

def Fits (call : Call C) : Prop := r.FitsPart call (r.part call.callee)

def Sent (calls : List (Call C)) : Prop := ∀ call ∈ calls, r.Fits call

section Fits
variable {r} {c : C} {call : Call C} {lqe : Lqe C}

theorem Sent.nil : r.Sent [] := fun _ h => by cases h

theorem Sent.one (h : r.Fits call) : r.Sent [call] := fun _ hc => List.mem_singleton.mp hc ▸ h

theorem Sent.append {a b : List (Call C)} (ha : r.Sent a) (hb : r.Sent b) : r.Sent (a ++ b) :=
  fun call hc => (List.mem_append.mp hc).elim (ha call) (hb call)

theorem Sent.cons {calls : List (Call C)} (h : r.Sent [call]) (hs : r.Sent calls) :
    r.Sent (call :: calls) := h.append hs

theorem arrives_iff {p : Part C} {kind : CallKind} (hp : r.part c = p) :
    r.Arrives c kind lqe ↔ r.Takes c p kind lqe := by
  subst hp
  exact Iff.rfl

theorem fits_iff {p : Part C} (hp : r.part call.callee = p) : r.Fits call ↔ r.FitsPart call p := by
  subst hp
  exact Iff.rfl

theorem fitsPart_of_takes {p : Part C} (h : r.Takes call.callee p call.kind call.lqe) :
    r.FitsPart call p := by
  cases p with
  | crossbar cfg => exact h.elim
  | core | cachel1 | cachel2 | directory | memoryController => exact h

theorem fits_of_arrives (h : r.Arrives call.callee call.kind call.lqe) :
    r.Fits call := fitsPart_of_takes h

theorem fits_of_takes {p : Part C} (hp : r.part call.callee = p)
    (h : r.Takes call.callee p call.kind call.lqe) : r.Fits call :=
  (fits_iff hp).mpr (fitsPart_of_takes h)

theorem fits_core (h : r.part call.callee = .core) (hl : r.Answer call.callee call.lqe) :
    r.Fits call :=
  fits_of_takes h hl

theorem fits_l1 {l2 : C} (h : r.IsL1Of l2 call.callee) (hk : call.kind = .rep)
    (hl : r.L1Reply l2 call.lqe) : r.Fits call := by
  obtain ⟨cfg, n, hp, rfl⟩ := h
  refine fits_of_takes hp ?_
  rw [hk]
  exact hl

theorem arrives_l2 (h : r.IsL2 c) (hl : r.L2Reply c lqe) : r.Arrives c .rep lqe := by
  obtain ⟨cfg, n, hp⟩ := h
  exact (arrives_iff hp).mpr hl

theorem arrives_directory (h : r.IsDirectory c) (hl : r.DirReply c lqe) : r.Arrives c .rep lqe := by
  obtain ⟨cfg, hp⟩ := h
  exact (arrives_iff hp).mpr hl

theorem arrives_demand (h : r.IsDirectory c) (hl : r.DirDemand c lqe) : r.Arrives c .req lqe := by
  obtain ⟨cfg, hp⟩ := h
  exact (arrives_iff hp).mpr (.inl hl)

theorem fits_l2_req (h : r.IsL2 call.callee) (hk : call.kind = .req)
    (hl : r.L2Request call.callee call.lqe) :
    r.Fits call := by
  obtain ⟨cfg, n, hp⟩ := h
  refine fits_of_takes hp ?_
  rw [hk]
  exact hl

theorem fits_l2 (h : r.IsL2 call.callee) (hk : call.kind = .rep)
    (hl : r.L2Reply call.callee call.lqe) :
    r.Fits call := by
  refine fits_of_arrives ?_
  rw [hk]
  exact arrives_l2 h hl

theorem fits_demand (h : r.IsDirectory call.callee) (hk : call.kind = .req)
    (hl : r.DirDemand call.callee call.lqe) : r.Fits call := by
  refine fits_of_arrives ?_
  rw [hk]
  exact arrives_demand h hl

theorem fits_directory (h : r.IsDirectory call.callee) (hk : call.kind = .rep)
    (hl : r.DirReply call.callee call.lqe) : r.Fits call := by
  refine fits_of_arrives ?_
  rw [hk]
  exact arrives_directory h hl

theorem fits_mc {cfg : McConfig C} (h : r.part call.callee = .memoryController cfg)
    (hk : call.kind = .req) (hl : r.McMessage cfg.directory call.lqe) : r.Fits call := by
  refine fits_of_takes h ?_
  rw [hk]
  exact hl

theorem fits_crossbar (h : r.IsCrossbar call.callee)
    (hl : ∀ cfg, r.part call.callee = .crossbar cfg →
      r.Passes cfg (Part.priority call.kind) call.lqe) :
    r.Fits call := by
  obtain ⟨cfg, hp⟩ := h
  exact (fits_iff hp).mpr (hl cfg hp)

theorem IsL2.not_directory (h : r.IsL2 c) : ¬ r.IsDirectory c := by
  rintro ⟨cfg, hp⟩
  obtain ⟨cfg', n, hp'⟩ := h
  cases hp.symm.trans hp'

theorem Demand.serial {serial : Option Nat} {path : List C} (h : r.Demand serial path) :
    serial ≠ none := by
  obtain ⟨n, core, rfl, -⟩ := h
  exact Option.some_ne_none n

theorem Asked.demand {l2 : C} {serial : Option Nat} {path : List C} (h : r.Asked l2 serial path)
    (hs : serial ≠ none ∨ 1 < path.length) :
    ∃ l1 below, path = l1 :: below ∧ r.IsL1Of l2 l1 ∧ r.Demand serial below := by
  obtain ⟨l1, below, rfl, hl1, demand | ⟨none, rfl⟩⟩ := h
  · exact ⟨l1, below, rfl, hl1, demand⟩
  · rcases hs with hs | hs
    · exact (hs none).elim
    · exact absurd hs (by simp)

end Fits
end Routes

namespace CacheL1

def Orderly (r : Routes C) (cfg : L1Config C) (s : CacheL1 C) : Prop :=
  Inbox.All r.L1Request (r.L1Reply cfg.cachel2) s.reqEvent s.repEvent s.repQ s.reqQs

end CacheL1

namespace CacheL2

/-- A way names first-level caches of this cache, and holds back what the directory asked for. -/
structure Sharing (r : Routes C) (l2 : C) (e : L2Entry C) : Prop where
  sharedL1 : ∀ c ∈ e.sharedL1, r.IsL1Of l2 c
  pending : ∀ p ∈ e.pending, Routes.asksL2 p.type ∧ p.path.head? = some (r.home p.address)

structure Orderly (r : Routes C) (l2 : C) (s : CacheL2 C) : Prop where
  messages : Inbox.All (r.L2Request l2) (r.L2Reply l2) s.reqEvent s.repEvent s.repQ s.reqQs
  ways : ∀ set, ∀ e ∈ s.tags set, Sharing r l2 e

end CacheL2

namespace Directory

/-- An entry names second-level caches, or the directory where it answers itself. -/
structure Sharing (r : Routes C) (d : C) (e : DirEntry C) : Prop where
  sharedL2 : ∀ c ∈ e.sharedL2, r.IsL2 c ∨ c = d
  pending : ∀ p ∈ e.pending, r.DirDemand d p

def Homed (r : Routes C) (cfg : DirConfig C) (d : C) (line : Nat) : Prop :=
  ∃ address, cfg.lineOf address = line ∧ r.home address = d

structure Orderly (r : Routes C) (cfg : DirConfig C) (d : C) (s : Directory C) : Prop where
  messages : Inbox.All (fun lqe => r.DirDemand d lqe ∨ r.DirInfo d lqe) (r.DirReply d)
    s.reqEvent s.repEvent s.repQ fun _ => s.reqQ
  entries : ∀ line, ∀ e ∈ s.dir line, Sharing r d e
  lines : ∀ line, (s.dir line).isSome → Homed r cfg d line
  cached : ∀ set, ∀ key ∈ s.dirCache set, Homed r cfg d key

end Directory

namespace Crossbar

structure Orderly (r : Routes C) (cfg : CrossbarConfig C) (x : Crossbar C) : Prop where
  events : ∀ cls, ∀ e ∈ x.events cls, e.2.1.dummy ∨ r.Passes cfg cls e.2.1
  queues : ∀ port, ∀ e ∈ x.queues port, e.2.1.dummy ∨ r.Arrives e.2.2 (Routes.handedAs e.1) e.2.1

end Crossbar

namespace MemoryController

structure Orderly (r : Routes C) (cfg : McConfig C) (s : MemoryController C) : Prop where
  reqEvent : Inbox.Timed (r.McMessage cfg.directory) s.reqEvent
  reqL : ∀ lqe ∈ s.reqL, r.McMessage cfg.directory lqe

end MemoryController

namespace Part

def Orderly (r : Routes C) (c : C) : (p : Part C) → p.State → Prop
  | core, _ => True
  | cachel1 cfg _, s => CacheL1.Orderly r cfg s
  | cachel2 _ _, s => CacheL2.Orderly r c s
  | directory cfg, s => Directory.Orderly r cfg c s
  | crossbar cfg, s => Crossbar.Orderly r cfg s
  | memoryController cfg, s => MemoryController.Orderly r cfg s

end Part
end McSim
