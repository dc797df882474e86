import McSim.ReturnPath
import McSim.Topology
import Mathlib.Data.Prod.Lex

/-! The machine that `create_comps` makes: the components with the pointers that `connect_comps` has
set. Each line has one directory in it. -/

namespace McSim

open Contract

inductive Comp
  | core (i : Nat)
  | l1i (i : Nat)
  | l1d (i : Nat)
  | l2 (i : Nat)
  | directory (i : Nat)
  | memoryController (i : Nat)
  | noc
deriving DecidableEq, Repr

namespace Comp

/-- The vector that a component is in, and its `num` -/
def key : Comp → Nat × Nat
  | core i => (0, i)
  | l1i i => (1, i)
  | l1d i => (2, i)
  | l2 i => (3, i)
  | directory i => (4, i)
  | memoryController i => (5, i)
  | noc => (6, 0)

def num (c : Comp) : Nat := c.key.2

theorem key_injective : Function.Injective fun c => toLex (key c) := by
  intro a b h
  cases a <;> cases b <;> simp_all [key]

instance : LinearOrder Comp := LinearOrder.lift' _ key_injective

end Comp

/-- What the components are made with. Their pointers are overwritten, and the interleave bits are
shift amounts of 64-bit addresses. -/
structure Params where
  l1i : L1Config Comp
  l1d : L1Config Comp
  numL1Ways : Nat
  l2 : L2Config Comp
  numL2Ways : Nat
  directory : DirConfig Comp
  memoryController : McConfig Comp
  noc : CrossbarConfig Comp
  interleaveBaseBit : Fin 64
  interleaveXorBaseBit : Fin 64
  numMcs : Nat

namespace Params

variable (p : Params)

def whichMc (address : Nat) : Nat :=
  McSim.whichMc p.interleaveBaseBit p.interleaveXorBaseBit p.numMcs address

def l1Part (cfg : L1Config Comp) (self : Comp) (l2 : Nat) : Part Comp :=
  .cachel1 { cfg with self, cachel2 := .l2 l2 } p.numL1Ways

def l2Part (i dir : Nat) : Part Comp :=
  .cachel2 { p.l2 with
    self := .l2 i, directory := .directory dir, directoryNum := dir, crossbar := .noc
    whichMc := p.whichMc } p.numL2Ways

def directoryPart (numL2s i mc l2 : Nat) : Part Comp :=
  .directory { p.directory with
    self := .directory i, memoryController := .memoryController mc, cachel2 := .l2 l2
    crossbar := .noc
    crossbar_ne := Comp.noConfusion
    l2s := (List.range numL2s).map .l2
    l2s_nodup := List.nodup_range.map fun _ _ h => Comp.l2.inj h
    self_notMem := by simp }

def memoryControllerPart (dir : Nat) : Part Comp :=
  .memoryController { p.memoryController with directory := .directory dir }

def nocPart (directory : Nat → Nat) : Part Comp :=
  .crossbar { p.noc with
    num := Comp.num, directory := fun i => .directory (directory i), whichMc := p.whichMc }

end Params

namespace Topology

/-- The component behind an index. Where there is none, a core stands for it, which sends what it
likes. -/
def part (p : Params) (t : Topology) : Comp → Part Comp
  | .core _ => .core
  | .l1i i => ((t.l1is[i]?).bind (·.cachel2)).elim .core (p.l1Part p.l1i (.l1i i))
  | .l1d i => ((t.l1ds[i]?).bind (·.cachel2)).elim .core (p.l1Part p.l1d (.l1d i))
  | .l2 i => ((t.l2s[i]?).bind (·.directory)).elim .core (p.l2Part i)
  | .directory i =>
    match t.dirs[i]? with
    | some { memorycontroller := some mc, cachel2 := some l2, .. } =>
      p.directoryPart t.l2s.length i mc l2
    | _ => .core
  | .memoryController i => ((t.mcs[i]?).bind id).elim .core p.memoryControllerPart
  | .noc => p.nocPart fun i => t.nocDirectory.getD i 0

variable {p : Params} {H L : Nat}

inductive Placed (p : Params) (H L : Nat) : Comp → Part Comp → Prop
  | core (c : Comp) : Placed p H L c .core
  | l1i {i : Nat} : i < H → Placed p H L (.l1i i) (p.l1Part p.l1i (.l1i i) (i / L))
  | l1d {i : Nat} : i < H → Placed p H L (.l1d i) (p.l1Part p.l1d (.l1d i) (i / L))
  | l2 {i : Nat} : i < H / L → Placed p H L (.l2 i) (p.l2Part i i)
  | directory {i : Nat} : i < H / L → Placed p H L (.directory i) (p.directoryPart (H / L) i i i)
  | memoryController {i : Nat} :
      i < H / L → Placed p H L (.memoryController i) (p.memoryControllerPart i)
  | noc : Placed p H L .noc (p.nocPart fun i => (List.range (H / L)).getD i 0)

structure Behind (p : Params) (H L : Nat) (part : Comp → Part Comp) : Prop where
  l1i : ∀ i, part (.l1i i) = if i < H then p.l1Part p.l1i (.l1i i) (i / L) else .core
  l1d : ∀ i, part (.l1d i) = if i < H then p.l1Part p.l1d (.l1d i) (i / L) else .core
  l2 : ∀ i, part (.l2 i) = if i < H / L then p.l2Part i i else .core
  directory : ∀ i, part (.directory i) = if i < H / L then p.directoryPart (H / L) i i i else .core
  memoryController : ∀ i, part (.memoryController i) = if i < H / L
    then p.memoryControllerPart i else .core
  noc : part .noc = p.nocPart fun i => (List.range (H / L)).getD i 0
  core : ∀ i, part (.core i) = .core

theorem behind : Behind p H L ((atL2s H L (H / L)).part p) := by
  refine ⟨fun i => ?_, fun i => ?_, fun i => ?_, fun i => ?_, fun i => ?_, rfl, fun _ => rfl⟩
  · unfold part atL2s
    dsimp only
    rw [Loop.getElem?_table]
    split <;> rfl
  · unfold part atL2s
    dsimp only
    rw [Loop.getElem?_table]
    split <;> rfl
  · unfold part
    dsimp only
    rw [atL2s_l2s, Loop.getElem?_table]
    split <;> rfl
  · have dirs : (atL2s H L (H / L)).dirs = Loop.table (H / L) fun k =>
        { memorycontroller := some k, cachel2 := some k, crossbar := true } := Loop.table_upto_all
    unfold part
    dsimp only
    rw [dirs, Loop.getElem?_table, atL2s_l2s, Loop.length_table]
    split_ifs <;> rfl
  · have mcs : (atL2s H L (H / L)).mcs = Loop.table (H / L) some := Loop.table_upto_all
    unfold part
    dsimp only
    rw [mcs, Loop.getElem?_table]
    split <;> rfl

theorem created {M : Nat} {t : Topology} (h : createComps H L M = .ok t) :
    t = atL2s H L (H / L) ∧ 0 < L ∧ L ∣ H := by
  have pos : 0 < L := by
    by_contra none
    unfold createComps at h
    rw [if_pos (Nat.eq_zero_of_not_pos none)] at h
    cases h
  have few : M * L % 2 ^ 32 ≤ H := by
    by_contra many
    unfold createComps connectComps at h
    rw [if_neg pos.ne', if_pos (not_le.mp many)] at h
    cases h
  by_cases even : L ∣ H
  · rw [createComps_ok pos even few] at h
    exact ⟨(Except.ok.inj h).symm, pos, even⟩
  · rw [createComps_out pos even few] at h
    cases h

namespace Behind

variable {part : Comp → Part Comp} (b : Behind p H L part)
include b

theorem placed (c : Comp) : Placed p H L c (part c) := by
  cases c with
  | core i => rw [b.core]; exact .core _
  | l1i i =>
    rw [b.l1i]
    split
    · rename_i inside
      exact .l1i inside
    · exact .core _
  | l1d i =>
    rw [b.l1d]
    split
    · rename_i inside
      exact .l1d inside
    · exact .core _
  | l2 i =>
    rw [b.l2]
    split
    · rename_i inside
      exact .l2 inside
    · exact .core _
  | directory i =>
    rw [b.directory]
    split
    · rename_i inside
      exact .directory inside
    · exact .core _
  | memoryController i =>
    rw [b.memoryController]
    split
    · rename_i inside
      exact .memoryController inside
    · exact .core _
  | noc => rw [b.noc]; exact .noc

theorem isL2 {i : Nat} (h : i < H / L) : ∃ cfg n, part (.l2 i) = .cachel2 cfg n :=
  ⟨_, _, (b.l2 i).trans (if_pos h)⟩

theorem isDirectory {i : Nat} (h : i < H / L) : ∃ cfg, part (.directory i) = .directory cfg :=
  ⟨_, (b.directory i).trans (if_pos h)⟩

theorem laid (even : L ∣ H) (home : ∀ address, p.whichMc address < H / L)
    (issuer : Nat → Option Comp) :
    Routes.Laid ⟨part, fun address => .directory (p.whichMc address), issuer⟩ where
  home address := b.isDirectory (home address)
  cachel1 c cfg n h := by
    have placed := h.subst (motive := Placed p H L c) (b.placed c)
    cases placed with
    | l1i inside => exact ⟨rfl, b.isL2 (Nat.div_lt_div_of_lt_of_dvd even inside)⟩
    | l1d inside => exact ⟨rfl, b.isL2 (Nat.div_lt_div_of_lt_of_dvd even inside)⟩
  cachel2 c cfg n h := by
    have placed := h.subst (motive := Placed p H L c) (b.placed c)
    cases placed with
    | l2 inside =>
      exact ⟨rfl, b.isDirectory inside, ⟨_, b.noc⟩,
        fun address own => congrArg Comp.directory own.symm⟩
  directory c cfg h := by
    have placed := h.subst (motive := Placed p H L c) (b.placed c)
    cases placed with
    | directory inside =>
      refine ⟨rfl, b.isL2 inside, fun l2 mem => ?_, ⟨_, b.noc⟩,
        _, (b.memoryController _).trans (if_pos inside), rfl⟩
      obtain ⟨i, hi, rfl⟩ := List.mem_map.mp mem
      exact b.isL2 (List.mem_range.mp hi)
  crossbar c cfg h := by
    have placed := h.subst (motive := Placed p H L c) (b.placed c)
    cases placed with
    | noc =>
      intro address
      have same : (List.range (H / L)).getD (p.whichMc address) 0 = p.whichMc address := by
        rw [List.getD_eq_getElem?_getD, List.getElem?_range (home address)]
        rfl
      exact congrArg Comp.directory same
  memoryController c cfg h := by
    have placed := h.subst (motive := Placed p H L c) (b.placed c)
    cases placed with
    | memoryController inside => exact b.isDirectory inside

end Behind

def machine (p : Params) (t : Topology) (made : createComps H L p.numMcs = .ok t) :
    Machine Comp where
  part := t.part p
  mcs := (List.range t.mcs.length).map .memoryController
  mem_mcs := by
    obtain ⟨rfl, -, -⟩ := created made
    intro c mem
    obtain ⟨i, hi, rfl⟩ := List.mem_map.mp mem
    have inside : i < H / L := (List.mem_range.mp hi).trans_eq (Loop.length_table _)
    rw [(behind.memoryController i).trans (if_pos inside)]
    rfl
  cachel1_wired c cfg n h := by
    obtain ⟨rfl, -, -⟩ := created made
    have placed := h.subst (motive := Placed p H L c) (behind.placed c)
    cases placed <;> rfl
  cachel2_wired c cfg n h := by
    obtain ⟨rfl, -, -⟩ := created made
    have placed := h.subst (motive := Placed p H L c) (behind.placed c)
    cases placed
    rfl
  directory_wired c cfg h := by
    obtain ⟨rfl, -, -⟩ := created made
    have placed := h.subst (motive := Placed p H L c) (behind.placed c)
    cases placed with
    | directory inside =>
      refine ⟨rfl, ?_, _, behind.noc⟩
      exact (congrArg Part.isMc ((behind.memoryController _).trans (if_pos inside))).trans rfl
  memoryController_wired c cfg h := by
    obtain ⟨rfl, -, -⟩ := created made
    have placed := h.subst (motive := Placed p H L c) (behind.placed c)
    cases placed with
    | memoryController inside => exact behind.isDirectory inside

variable {t : Topology} {made : createComps H L p.numMcs = .ok t}

theorem enough (made : createComps H L p.numMcs = .ok t) (noWrap : p.numMcs * L < 2 ^ 32) :
    p.numMcs ≤ H / L := by
  obtain ⟨-, pos, -⟩ := created made
  rw [Nat.le_div_iff_mul_le pos]
  by_contra many
  unfold createComps connectComps at made
  rw [if_neg pos.ne', Nat.mod_eq_of_lt noWrap, if_pos (not_le.mp many)] at made
  cases made

theorem machine_laid (mcs : 0 < p.numMcs) (noWrap : p.numMcs * L < 2 ^ 32) :
    (machine p t made).Laid fun address => .directory (p.whichMc address) := by
  have home : ∀ address, p.whichMc address < H / L := fun address =>
    (Nat.mod_lt _ mcs).trans_le (enough made noWrap)
  obtain ⟨rfl, -, even⟩ := created made
  exact behind.laid even home _

theorem whichMc_line {lsb a b : Nat}
    (low : lsb ≤ min p.interleaveBaseBit.val p.interleaveXorBaseBit.val)
    (line : a >>> lsb = b >>> lsb) : p.whichMc a = p.whichMc b := by
  have same : a >>> min p.interleaveBaseBit.val p.interleaveXorBaseBit.val =
      b >>> min p.interleaveBaseBit.val p.interleaveXorBaseBit.val := by
    rw [← Nat.add_sub_cancel' low, Nat.shiftRight_add, line, ← Nat.shiftRight_add]
  unfold Params.whichMc
  rw [whichMc_eq, whichMc_eq, same]

end Topology

namespace Directory

variable {C : Type} {r : Routes C} {cfg : DirConfig C} {c : C} {s : Directory C} {lqe : Lqe C}
    {address : Nat}

/-- An element that is on its way into a queue, in one, or held back by an entry -/
def Waits (s : Directory C) (lqe : Lqe C) : Prop :=
  (∃ t, (t, lqe) ∈ s.reqEvent) ∨ (∃ t, (t, lqe) ∈ s.repEvent) ∨ lqe ∈ s.reqQ ∨ lqe ∈ s.repQ ∨
    ∃ line e, s.dir line = some e ∧ e.pending = some lqe

/-- There is an entry or a key for the line of an address, or an element for it. -/
def Knows (cfg : DirConfig C) (address : Nat) (s : Directory C) : Prop :=
  (s.dir (cfg.lineOf address)).isSome ∨ (∃ set, cfg.lineOf address ∈ s.dirCache set) ∨
    ∃ lqe, s.Waits lqe ∧ cfg.lineOf lqe.address = cfg.lineOf address

theorem Orderly.waits (h : Orderly r cfg c s) (waits : s.Waits lqe) : r.home lqe.address = c := by
  have req : ∀ {lqe}, r.DirDemand c lqe ∨ r.DirInfo c lqe → r.home lqe.address = c :=
    fun h => h.elim And.left And.left
  rcases waits with ⟨t, mem⟩ | ⟨t, mem⟩ | mem | mem | ⟨line, e, he, pending⟩
  · exact req (h.messages.reqEvent _ mem)
  · exact (h.messages.repEvent _ mem).1
  · exact req (h.messages.reqQs 0 _ mem)
  · exact (h.messages.repQ _ mem).1
  · exact ((h.entries line e he).pending lqe pending).1

theorem Orderly.knows (h : Orderly r cfg c s) (knows : Knows cfg address s)
    (byLine : ∀ a b, cfg.lineOf a = cfg.lineOf b → r.home a = r.home b) : r.home address = c := by
  have homed : Homed r cfg c (cfg.lineOf address) → r.home address = c := by
    rintro ⟨a, line, home⟩
    exact (byLine address a line.symm).trans home
  rcases knows with entry | ⟨set, key⟩ | ⟨lqe, waits, line⟩
  · exact homed (h.lines _ entry)
  · exact homed (h.cached set _ key)
  · exact homed ⟨lqe.address, line, h.waits waits⟩

end Directory

namespace Part

variable {C : Type}

def Knows (address : Nat) : (p : Part C) → p.State → Prop
  | directory cfg, s => Directory.Knows cfg address s
  | _, _ => False

def entry (address : Nat) : (p : Part C) → p.State → Option (DirEntry C)
  | directory cfg, s => Directory.dir s (cfg.lineOf address)
  | _, _ => none

theorem knows_of_entry {p : Part C} {s : p.State} {address : Nat} (h : (p.entry address s).isSome) :
    p.Knows address s := by
  cases p with
  | directory cfg => exact .inl h
  | _ => cases h

theorem Orderly.knows {r : Routes C} {c : C} {p : Part C} {s : p.State} {address : Nat}
    (h : p.Orderly r c s) (knows : p.Knows address s)
    (byLine : ∀ cfg, p = .directory cfg → ∀ a b, cfg.lineOf a = cfg.lineOf b →
      r.home a = r.home b) :
    r.home address = c := by
  cases p with
  | directory cfg => exact Directory.Orderly.knows h knows (byLine cfg rfl)
  | _ => exact knows.elim

end Part

namespace Topology

variable {p : Params} {H L : Nat} {t : Topology}

/-- What is known of an address in a run, some directory or other has it: the one of its
controller. -/
theorem one_directory (made : createComps H L p.numMcs = .ok t) (mcs : 0 < p.numMcs)
    (noWrap : p.numMcs * L < 2 ^ 32)
    (low : p.directory.setLsb ≤ min p.interleaveBaseBit.val p.interleaveXorBaseBit.val)
    {ok : Nat → Comp → System (machine p t made) → Prop} {s : System (machine p t made)}
    (run : System.Run (machine p t made) ok s) {address : Nat} {c : Comp}
    (knows : ((machine p t made).part c).Knows address (s.state c)) :
    c = .directory (p.whichMc address) := by
  have laid := @machine_laid p H L t made mcs noWrap
  obtain ⟨senders, log, logged⟩ := run.logged
  have orderly := (System.messages_fit laid logged).1 c
  refine (orderly.knows knows fun cfg hc a b line => ?_).symm
  have placed : Placed p H L c ((machine p t made).part c) := by
    obtain ⟨rfl, -, -⟩ := created made
    exact behind.placed c
  have directory := hc.subst (motive := Placed p H L c) placed
  cases directory
  exact congrArg Comp.directory (whichMc_line low line)

def lineLsb : Nat := 6

def smallL1 (isData : Bool) : L1Config Comp where
  self := .noc
  isData := isData
  cachel2 := .noc
  setLsb := lineLsb
  l2SetLsb := lineLsb
  setLsb_le := Nat.le_refl lineLsb
  numSets := 1
  numSets_pos := Nat.one_pos
  numBanks := 1
  numBanks_pos := Nat.one_pos
  numPreEntries := 1
  numPreEntries_pos := Nat.one_pos
  l1ToLsuT := 1
  l1ToL2T := 1
  alwaysHit := false
  usePrefetch := false
  processInterval := 1

def smallParts : Params where
  l1i := smallL1 false
  l1d := smallL1 true
  numL1Ways := 1
  l2 := {
    self := .noc, directory := .noc, directoryNum := 0, crossbar := .noc, whichMc := fun _ => 0
    setLsb := lineLsb, numSets := 1, numSets_pos := Nat.one_pos, numBanks := 1
    numBanks_pos := Nat.one_pos
    l2ToL1T := 1, l2ToDirT := 1, l2ToXbarT := 1, numFlitsPerPacket := 1
    alwaysHit := false, processInterval := 1 }
  numL2Ways := 1
  directory := {
    self := .noc, cachel2 := .l2 0, crossbar := .noc, crossbar_ne := Comp.noConfusion
    memoryController := .noc, l2s := [], l2s_nodup := List.nodup_nil,
    self_notMem := List.not_mem_nil
    setLsb := lineLsb, numSets := 1, numSets_pos := Nat.one_pos, numWays := 1
    dirToMcT := 1, dirToL2T := 1, dirToXbarT := 1, numFlitsPerPacket := 1
    hasDirectoryCache := false, useLimitless := false, limitlessBroadcastThreshold := 0
    processInterval := 1 }
  memoryController := {
    directory := .noc, processInterval := 1, processInterval_pos := Nat.one_pos
    tRCD := 1, tRR := 1, tRP := 1, tCL := 1, tBL := 1, tBBL := 1, tRAS := 1
    tWRBUB := 1, tRWBUB := 1, tRRBUB := 1, tWTR := 1, reqWindowSz := 4, mcToDirT := 10
    rankInterleaveBaseBit := 6, bankInterleaveBaseBit := 6, pageSzBaseBit := 12
    mcInterleaveBaseBit := 12, interleaveXorBaseBit := 20, numMcs := 2
    numRanksPerMc := 1, numBanksPerRank := 1, parBs := false, policy := .open, refreshInterval := 0
    fullDuplex := false, isFixedLatency := true, isFixedBwNLatency := false }
  noc := {
    processInterval := 1, interval_pos := Nat.one_pos, numPorts := 2
    ports_lt := Crossbar.twoPorts.ports_lt, xbarToDirT := 1
    num := fun _ => 0, directory := fun _ => .noc, whichMc := fun _ => 0 }
  interleaveBaseBit := 12
  interleaveXorBaseBit := 20
  numMcs := 2

theorem made_of_four : createComps 4 2 smallParts.numMcs = .ok (atL2s 4 2 2) :=
  createComps_ok (by decide) (by decide) (by decide)

def readAcross (n : Nat) : Except Abort (System (machine smallParts (atL2s 4 2 2) made_of_four)) :=
  do
  let s : System (machine smallParts (atL2s 4 2 2) made_of_four) ←
    (System.init (machine smallParts (atL2s 4 2 2) made_of_four)).request (.l1d 0) 0
      { path := [.core 0], type := .read, address := 4096 }
  s.follow (fun _ _ _ => True) n

theorem readAcross_run {n : Nat} {s : System (machine smallParts (atL2s 4 2 2) made_of_four)}
    (h : readAcross n = .ok s) :
    System.Run (machine smallParts (atL2s 4 2 2) made_of_four) (fun _ _ _ => True) s := by
  unfold readAcross at h
  cases step : (System.init (machine smallParts (atL2s 4 2 2) made_of_four)).request (.l1d 0) 0
      { path := [.core 0], type := .read, address := 4096 } with
  | error a => rw [step] at h; cases h
  | ok s₁ =>
    rw [step] at h
    exact ((System.Run.init.request rfl rfl (Nat.le_refl 0) rfl (.inl rfl) step).follow n).of_ok h

theorem readAcross_known : ∃ s, readAcross 4 = .ok s ∧
    (((machine smallParts (atL2s 4 2 2) made_of_four).part (.directory 1)).entry 4096
      (s.state (.directory 1))).isSome :=
  Meets.result (by decide +kernel)

/-- The line is known to the second directory. -/
theorem one_directory_of_read : ∃ s : System (machine smallParts (atL2s 4 2 2) made_of_four),
    System.Run (machine smallParts (atL2s 4 2 2) made_of_four) (fun _ _ _ => True) s ∧
    ((machine smallParts (atL2s 4 2 2) made_of_four).part (.directory 1)).Knows 4096
      (s.state (.directory 1)) ∧
    Comp.directory 1 = .directory (smallParts.whichMc 4096) := by
  obtain ⟨s, hs, entry⟩ := readAcross_known
  have run := readAcross_run hs
  have knows := Part.knows_of_entry entry
  exact ⟨s, run, knows, one_directory made_of_four (by decide) (by decide) (by decide) run knows⟩

end Topology
end McSim
