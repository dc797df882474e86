import McSim.Component
import McSim.Lib.BitFields
import McSim.Lib.Loop
import Mathlib.Algebra.GroupWithZero.Nat
import Mathlib.Data.List.Count

/-! The components, and how they are wired.
There is an L2, a directory and a memory controller for each group of hardware threads, as many
groups as a division gives; the wiring goes over the threads. A component is its index in its
vector. -/

namespace McSim

open Loop

/-- The pointers of an `O3Core` -/
structure CoreWires where
  cachel1i : Option Nat := none
  cachel1d : Option Nat := none
  tlbl1d : Option Nat := none
  tlbl1i : Option Nat := none
deriving DecidableEq, Repr

structure L1Wires where
  lsus : List Nat := []
  cachel2 : Option Nat := none
deriving DecidableEq, Repr

structure L2Wires where
  cachel1i : List Nat := []
  cachel1d : List Nat := []
  directory : Option Nat := none
  crossbar : Bool := false
deriving DecidableEq, Repr

structure DirWires where
  memorycontroller : Option Nat := none
  cachel2 : Option Nat := none
  crossbar : Bool := false
deriving DecidableEq, Repr

/-- The component vectors of `McSim`, and those of its crossbar. A memory controller has the
directory it is wired to, a TLB nothing. -/
structure Topology where
  o3cores : List CoreWires
  l1is : List L1Wires
  l1ds : List L1Wires
  tlbl1ds : List Unit
  tlbl1is : List Unit
  l2s : List L2Wires
  mcs : List (Option Nat)
  dirs : List DirWires
  nocDirectory : List Nat := []
  nocCachel2 : List Nat := []
deriving DecidableEq, Repr

namespace Topology

/-- `v[i]` where only the component is asked for -/
def pick {α : Type} (v : List α) (i : Nat) : Except Abort Nat :=
  if i < v.length then .ok i else .error .undefined

def newComps (numHthreads numL1PerL2 : Nat) : Topology where
  o3cores := List.replicate numHthreads {}
  l1is := List.replicate numHthreads {}
  l1ds := List.replicate numHthreads {}
  tlbl1ds := List.replicate numHthreads ()
  tlbl1is := List.replicate numHthreads ()
  l2s := List.replicate (numHthreads / numL1PerL2) {}
  mcs := List.replicate (numHthreads / numL1PerL2) none
  dirs := List.replicate (numHthreads / numL1PerL2) {}

def wireCore (i : Nat) (t : Topology) : Except Abort Topology := do
  let l1i ← pick t.l1is i
  let l1d ← pick t.l1ds i
  let d ← pick t.tlbl1ds i
  let c ← pick t.tlbl1is i
  let o3cores ← modify .undefined i
    (fun _ => { cachel1i := some l1i, cachel1d := some l1d, tlbl1d := some d, tlbl1i := some c })
      t.o3cores
  let l1is ← modify .undefined i (fun x => { x with lsus := x.lsus ++ [i] }) t.l1is
  let l1ds ← modify .undefined i (fun x => { x with lsus := x.lsus ++ [i] }) t.l1ds
  return { t with o3cores, l1is, l1ds }

def wireL1 (numL1PerL2 i : Nat) (t : Topology) : Except Abort Topology := do
  let l2 ← pick t.l2s (i / numL1PerL2)
  let l1is ← modify .undefined i (fun x => { x with cachel2 := some l2 }) t.l1is
  let l1ds ← modify .undefined i (fun x => { x with cachel2 := some l2 }) t.l1ds
  let l2s ← modify .undefined l2
    (fun x => { x with cachel1i := x.cachel1i ++ [i], cachel1d := x.cachel1d ++ [i] }) t.l2s
  return { t with l1is, l1ds, l2s }

def wireL2 (i : Nat) (t : Topology) : Except Abort Topology := do
  let mc ← pick t.mcs i
  let dir ← pick t.dirs i
  let l2 ← pick t.l2s i
  let dirs ← modify .undefined i
    (fun _ => { memorycontroller := some mc, cachel2 := some l2, crossbar := true }) t.dirs
  let mcs ← modify .undefined i (fun _ => some dir) t.mcs
  let l2s ← modify .undefined i (fun x => { x with directory := some dir, crossbar := true }) t.l2s
  return { t with
    dirs, mcs, l2s
    nocDirectory := t.nocDirectory ++ [dir]
    nocCachel2 := t.nocCachel2 ++ [l2] }

/-- `McSim::connect_comps`, which multiplies in 32 bits -/
def connectComps (numHthreads numL1PerL2 numMcs : Nat) (t : Topology) : Except Abort Topology :=
  if numHthreads < numMcs * numL1PerL2 % 2 ^ 32 then .error .fatal
  else do
    let t := { t with
      l1is := t.l1is.map fun x => { x with lsus := [] }
      l1ds := t.l1ds.map fun x => { x with lsus := [] } }
    let t ← loop numHthreads wireCore t
    let t := { t with l2s := t.l2s.map fun x => { x with cachel1i := [], cachel1d := [] } }
    let t ← loop numHthreads (wireL1 numL1PerL2) t
    loop (numHthreads / numL1PerL2) wireL2 { t with nocDirectory := [], nocCachel2 := [] }

def createComps (numHthreads numL1PerL2 numMcs : Nat) : Except Abort Topology :=
  if numL1PerL2 = 0 then .error .undefined
  else connectComps numHthreads numL1PerL2 numMcs (newComps numHthreads numL1PerL2)

variable {H L N i k : Nat}

theorem pick_table {α : Type} {f : Nat → α} (h : i < N) : pick (table N f) i = .ok i :=
  if_pos (by rwa [length_table])

theorem pick_out {α : Type} {f : Nat → α} (h : N ≤ i) : pick (table N f) i = .error .undefined :=
  if_neg (by rw [length_table]; exact not_lt.mpr h)

def core (i : Nat) : CoreWires :=
  { cachel1i := some i, cachel1d := some i, tlbl1d := some i, tlbl1i := some i }

/-- The threads below `i` in the group `k` -/
def group (L i k : Nat) : List Nat := (List.range i).filter fun j => j / L = k

/-- The first `i` cores are connected. -/
def atCores (H N i : Nat) : Topology where
  o3cores := table H (upto i core fun _ => {})
  l1is := table H (upto i (fun j => { lsus := [j] }) fun _ => {})
  l1ds := table H (upto i (fun j => { lsus := [j] }) fun _ => {})
  tlbl1ds := table H fun _ => ()
  tlbl1is := table H fun _ => ()
  l2s := table N fun _ => {}
  mcs := table N fun _ => none
  dirs := table N fun _ => {}

def atL1s (H L i : Nat) : Topology where
  o3cores := table H core
  l1is := table H (upto i (fun j => { lsus := [j], cachel2 := some (j / L) }) fun j =>
    { lsus := [j] })
  l1ds := table H (upto i (fun j => { lsus := [j], cachel2 := some (j / L) }) fun j =>
    { lsus := [j] })
  tlbl1ds := table H fun _ => ()
  tlbl1is := table H fun _ => ()
  l2s := table (H / L) fun k => { cachel1i := group L i k, cachel1d := group L i k }
  mcs := table (H / L) fun _ => none
  dirs := table (H / L) fun _ => {}

def l2 (H L k : Nat) : L2Wires :=
  { cachel1i := group L H k, cachel1d := group L H k, directory := some k, crossbar := true }

def atL2s (H L i : Nat) : Topology where
  o3cores := table H core
  l1is := table H fun j => { lsus := [j], cachel2 := some (j / L) }
  l1ds := table H fun j => { lsus := [j], cachel2 := some (j / L) }
  tlbl1ds := table H fun _ => ()
  tlbl1is := table H fun _ => ()
  l2s := table (H / L) (upto i (l2 H L) fun k =>
    { cachel1i := group L H k, cachel1d := group L H k })
  mcs := table (H / L) (upto i some fun _ => none)
  dirs := table (H / L)
    (upto i (fun k => { memorycontroller := some k, cachel2 := some k, crossbar := true })
      fun _ => {})
  nocDirectory := List.range i
  nocCachel2 := List.range i

theorem wireCore_atCores (h : i < H) : wireCore i (atCores H N i) = .ok (atCores H N (i + 1)) := by
  unfold wireCore atCores
  dsimp only
  simp only [pick_table h, bind, Except.bind]
  rw [modify_upto h rfl, modify_upto h rfl]
  rfl

theorem group_succ : group L (i + 1) k = if i / L = k then group L i k ++ [i] else group L i k := by
  unfold group
  rw [List.range_succ, List.filter_append]
  split
  · rename_i here
    rw [List.filter_cons_of_pos (by simpa using here)]
    rfl
  · rename_i other
    rw [List.filter_cons_of_neg (by simpa using other)]
    exact List.append_nil _

theorem wireL1_atL1s (h : i < H) (inside : i / L < H / L) :
    wireL1 L i (atL1s H L i) = .ok (atL1s H L (i + 1)) := by
  have joined : modify Abort.undefined (i / L)
      (fun x : L2Wires => { x with cachel1i := x.cachel1i ++ [i], cachel1d := x.cachel1d ++ [i] })
      (table (H / L) fun k => { cachel1i := group L i k, cachel1d := group L i k }) =
      .ok (table (H / L) fun k =>
        { cachel1i := group L (i + 1) k, cachel1d := group L (i + 1) k }) := by
    refine modify_to inside fun k => ?_
    rw [group_succ]
    by_cases here : k = i / L
    · rw [if_pos here, if_pos here.symm]
    · rw [if_neg here, if_neg (Ne.symm here)]
  unfold wireL1 atL1s
  dsimp only
  rw [pick_table inside]
  simp only [bind, Except.bind]
  rw [modify_upto h rfl, joined]
  rfl

theorem wireL1_out (out : H / L ≤ i / L) : wireL1 L i (atL1s H L i) = .error .undefined := by
  unfold wireL1 atL1s
  dsimp only
  rw [pick_out out]
  rfl

theorem wireL2_atL2s (h : i < H / L) : wireL2 i (atL2s H L i) = .ok (atL2s H L (i + 1)) := by
  unfold wireL2 atL2s
  dsimp only
  simp only [pick_table h, bind, Except.bind]
  rw [modify_upto h rfl, modify_upto h rfl, modify_upto h rfl, List.range_succ]
  rfl

theorem start_cores :
    { newComps H L with
      l1is := (newComps H L).l1is.map fun x => { x with lsus := [] }
      l1ds := (newComps H L).l1ds.map fun x => { x with lsus := [] } } = atCores H (H / L) 0 := by
  simp only [newComps, atCores, replicate_eq_table, map_table, table_upto_zero]

theorem start_l1s :
    { atCores H (H / L) H with
      l2s := (atCores H (H / L) H).l2s.map fun x => { x with cachel1i := [], cachel1d := [] } } =
      atL1s H L 0 := by
  simp only [atCores, atL1s, map_table, table_upto_zero, table_upto_all]
  rfl

theorem start_l2s : { atL1s H L H with nocDirectory := [], nocCachel2 := [] } = atL2s H L 0 := by
  simp only [atL1s, atL2s, table_upto_zero, table_upto_all]
  rfl

theorem createComps_eq {M : Nat} (hL : 0 < L) (few : M * L % 2 ^ 32 ≤ H) :
    createComps H L M = (loop H (wireL1 L) (atL1s H L 0)).bind fun t =>
      loop (H / L) wireL2 { t with nocDirectory := [], nocCachel2 := [] } := by
  have cores : loop H wireCore (atCores H (H / L) 0) = .ok (atCores H (H / L) H) :=
    loop_eq fun i hi => wireCore_atCores hi
  unfold createComps connectComps
  rw [if_neg hL.ne', if_neg (not_lt.mpr few)]
  dsimp only
  rw [start_cores, cores]
  simp only [bind, Except.bind]
  rw [start_l1s]

theorem createComps_ok {M : Nat} (hL : 0 < L) (even : L ∣ H) (few : M * L % 2 ^ 32 ≤ H) :
    createComps H L M = .ok (atL2s H L (H / L)) := by
  have l1s : loop H (wireL1 L) (atL1s H L 0) = .ok (atL1s H L H) :=
    loop_eq fun i hi => wireL1_atL1s hi (Nat.div_lt_div_of_lt_of_dvd even hi)
  rw [createComps_eq hL few, l1s]
  show loop (H / L) wireL2 _ = _
  rw [start_l2s]
  exact loop_eq fun i hi => wireL2_atL2s hi

theorem createComps_out {M : Nat} (hL : 0 < L) (uneven : ¬ L ∣ H) (few : M * L % 2 ^ 32 ≤ H) :
    createComps H L M = .error .undefined := by
  have past : H / L * L < H :=
    lt_of_le_of_ne (Nat.div_mul_le_self H L) fun full => uneven (full ▸ Nat.dvd_mul_left L _)
  have inside : loop (H / L * L) (wireL1 L) (atL1s H L 0) = .ok (atL1s H L (H / L * L)) :=
    loop_eq fun i hi => wireL1_atL1s (hi.trans past) (Nat.div_lt_of_lt_mul (Nat.mul_comm _ _ ▸ hi))
  rw [createComps_eq hL few, loop_error inside (wireL1_out (Nat.mul_div_cancel _ hL).ge) past]
  rfl

theorem whichMc_eq {b₁ b₂ M a : Nat} :
    whichMc b₁ b₂ M a =
      (a >>> min b₁ b₂ ^^^ (a >>> min b₁ b₂) >>> (max b₁ b₂ - min b₁ b₂)) % M := by
  unfold whichMc
  rw [← Nat.shiftRight_add, Nat.add_sub_cancel' (min_le_max)]
  obtain le | le := le_total b₁ b₂
  · rw [min_eq_left le, max_eq_right le]
  · rw [min_eq_right le, max_eq_left le, Nat.xor_comm]

theorem shiftRight_lt {a b : Nat} (h : a < 2 ^ 64) : a >>> b < 2 ^ (64 - b) := by
  rw [Nat.shiftRight_eq_div_pow]
  refine Nat.div_lt_of_lt_mul (lt_of_lt_of_le h ?_)
  rw [← Nat.pow_add]
  exact Nat.pow_le_pow_right Nat.two_pos (by omega)

theorem whichMc_lt_iff {b₁ b₂ M N : Nat} (hM : 0 < M) (hN : 0 < N) :
    (∀ a < 2 ^ 64, whichMc b₁ b₂ M a < N) ↔ M ≤ N ∨ b₁ = b₂ ∨ 2 ^ (64 - min b₁ b₂) ≤ N := by
  constructor
  · intro all
    by_contra none
    simp only [not_or, not_le] at none
    obtain ⟨many, ne, wide⟩ := none
    have apart : 0 < max b₁ b₂ - min b₁ b₂ := Nat.sub_pos_of_lt (min_lt_max.mpr ne)
    obtain ⟨y, small, hash⟩ := BitFields.exists_hash apart N wide
    have low : min b₁ b₂ ≤ 64 := by
      by_contra high
      rw [Nat.sub_eq_zero_of_le (not_le.mp high).le] at wide
      exact absurd hN (by omega)
    have address : y <<< min b₁ b₂ < 2 ^ 64 := by
      rw [Nat.shiftLeft_eq]
      calc y * 2 ^ min b₁ b₂ < 2 ^ (64 - min b₁ b₂) * 2 ^ min b₁ b₂ :=
            Nat.mul_lt_mul_of_pos_right small (Nat.two_pow_pos _)
        _ = 2 ^ 64 := by rw [← Nat.pow_add, Nat.sub_add_cancel low]
    have asked := all _ address
    rw [whichMc_eq, Nat.shiftLeft_shiftRight, hash, Nat.mod_eq_of_lt many] at asked
    exact lt_irrefl N asked
  · rintro (few | rfl | narrow) a ha
    · exact lt_of_lt_of_le (Nat.mod_lt _ hM) few
    · rw [whichMc, Nat.xor_self, Nat.zero_mod]
      exact hN
    · rw [whichMc_eq]
      refine lt_of_le_of_lt (Nat.mod_le _ M) (lt_of_lt_of_le (Nat.xor_lt_two_pow ?_ ?_) narrow)
      · exact shiftRight_lt ha
      · exact lt_of_le_of_lt (Nat.shiftRight_le _ _) (shiftRight_lt ha)

theorem mem_group : i ∈ group L H k ↔ i < H ∧ i / L = k := by
  simp [group]

theorem group_nodup : (group L H k).Nodup := List.nodup_range.filter _

theorem count_group (h : i < H) : (group L H k).count i = if k = i / L then 1 else 0 := by
  rw [group_nodup.count]
  exact if_congr (mem_group.trans ((and_iff_right h).trans eq_comm)) rfl rfl

theorem length_group (hL : 0 < L) (h : k < H / L) : (group L H k).length = L := by
  have places : (group L H k).toFinset = Finset.Ico (k * L) (k * L + L) := by
    ext i
    have full : (k + 1) * L ≤ H := (Nat.mul_le_mul_right L h).trans (Nat.div_mul_le_self H L)
    rw [List.mem_toFinset, mem_group, Finset.mem_Ico, Nat.div_eq_iff hL]
    rw [Nat.succ_mul] at full
    omega
  rw [← List.toFinset_card_of_nodup group_nodup, places, Nat.card_Ico, Nat.add_sub_cancel_left]

/-- The directories that addresses ask for are there, each L1 has one L2 and is there once, and each
L2 has its number of L1s. -/
structure WellWired (b₁ b₂ H L M : Nat) (t : Topology) : Prop where
  directory : ∀ address < 2 ^ 64, whichMc b₁ b₂ M address < t.nocDirectory.length
  attached : ∀ i < H, ∃ k < t.l2s.length,
    (∃ x, t.l1is[i]? = some x ∧ x.cachel2 = some k) ∧
      (∃ x, t.l1ds[i]? = some x ∧ x.cachel2 = some k) ∧
      ∀ k' x, t.l2s[k']? = some x →
        x.cachel1i.count i = (if k' = k then 1 else 0) ∧ x.cachel1d.count i = if k' = k
          then 1 else 0
  full : ∀ x ∈ t.l2s, x.cachel1i.length = L ∧ x.cachel1d.length = L

theorem atL2s_l2s : (atL2s H L (H / L)).l2s = table (H / L) (l2 H L) := table_upto_all

theorem get_l2s {x : L2Wires} (h : (atL2s H L (H / L)).l2s[k]? = some x) : x = l2 H L k := by
  rw [atL2s_l2s] at h
  have inside : k < H / L := by
    obtain ⟨lt, -⟩ := List.getElem?_eq_some_iff.mp h
    rwa [length_table] at lt
  rw [get_table inside] at h
  exact (Option.some.inj h).symm

theorem wellWired_iff {b₁ b₂ M : Nat} (hH : 0 < H) (hL : 0 < L) (hM : 0 < M) (even : L ∣ H) :
    WellWired b₁ b₂ H L M (atL2s H L (H / L)) ↔
      M ≤ H / L ∨ b₁ = b₂ ∨ 2 ^ (64 - min b₁ b₂) ≤ H / L := by
  have some' : 0 < H / L := Nat.div_pos (Nat.le_of_dvd hH even) hL
  have directories : (atL2s H L (H / L)).nocDirectory.length = H / L := List.length_range
  rw [← whichMc_lt_iff hM some']
  refine ⟨fun wired a ha => directories ▸ wired.directory a ha, fun below => ⟨?_, ?_, ?_⟩⟩
  · intro a ha
    rw [directories]
    exact below a ha
  · intro i hi
    refine ⟨i / L, ?_, ⟨_, get_table hi, rfl⟩, ⟨_, get_table hi, rfl⟩, fun k x hx => ?_⟩
    · rw [atL2s_l2s, length_table]
      exact Nat.div_lt_div_of_lt_of_dvd even hi
    · obtain rfl := get_l2s hx
      exact ⟨count_group hi, count_group hi⟩
  · intro x mem
    rw [atL2s_l2s] at mem
    obtain ⟨k, hk, rfl⟩ := mem_table.mp mem
    exact ⟨length_group hL hk, length_group hL hk⟩

/-- The construction is in range for full groups, when the products do not pass the check by an
overflow. The interleave bits are shift amounts of 64-bit addresses. -/
theorem construction_in_range_iff (b₁ b₂ : Fin 64) (H L M : Nat) (hH : 0 < H) (hL : 0 < L)
    (hM : 0 < M) (check : M * L % 2 ^ 32 ≤ H) :
    (∃ t, createComps H L M = .ok t ∧ WellWired b₁ b₂ H L M t) ↔
      L ∣ H ∧ (M ≤ H / L ∨ b₁ = b₂ ∨ 2 ^ (64 - min b₁.val b₂.val) ≤ H / L) := by
  by_cases even : L ∣ H
  · rw [createComps_ok hL even check, and_iff_right even, Fin.ext_iff,
      ← wellWired_iff hH hL hM even]
    constructor
    · rintro ⟨t, same, wired⟩
      obtain rfl := Except.ok.inj same
      exact wired
    · exact fun wired => ⟨_, rfl, wired⟩
  · rw [createComps_out hL even check]
    refine iff_of_false ?_ fun h => even h.1
    rintro ⟨t, out, -⟩
    cases out

/-- Four threads, two for each L2, and two controllers -/
theorem construction_of_four : ∃ t, createComps 4 2 2 = .ok t ∧ WellWired 12 20 4 2 2 t :=
  (construction_in_range_iff 12 20 4 2 2 (by decide) (by decide) (by decide) (by decide)).mpr
    ⟨by decide, .inl (by decide)⟩

/-- Five threads pass the check, and the fifth has no L2; so do two threads with very many
controllers, and there is one directory. -/
theorem construction_out_of_range :
    createComps 5 2 2 = .error .undefined ∧
      ∃ t, createComps 2 2 (2 ^ 31) = .ok t ∧
        t.nocDirectory.length ≤ whichMc 12 20 (2 ^ 31) (1 <<< 12) :=
  ⟨createComps_out (by decide) (by decide) (by decide),
    _, createComps_ok (by decide) (by decide) (by decide), by decide⟩

end Topology
end McSim
