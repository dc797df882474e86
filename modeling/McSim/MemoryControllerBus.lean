import McSim.MemoryControllerTiming
import Mathlib.Order.Interval.Finset.Nat

/-! The data bus of the memory controller.
A column command enters the slots of its burst into a data path. Ticks are multiples of the process
interval, so that a burst that overlaps another one shares a slot with it. -/

namespace McSim

open MemoryController Contract

variable {C : Type} {cfg : McConfig C} {t t' : Nat} {lqe : Lqe C} {kind : Bool → Prop}
  {log : List (Nat × McCommand × Lqe C)} {path path' : List (Nat × McBankAction)}

def McConfig.burst (cfg : McConfig C) (t : Nat) : Finset Nat :=
  Finset.Ico (t + cfg.tCL * cfg.processInterval) (t + (cfg.tCL + cfg.tBL) * cfg.processInterval)

/-- The burst of a command at `t` starts at least `gap` after the end of the one at `t'`. -/
def McConfig.Gap (cfg : McConfig C) (gap t' t : Nat) : Prop :=
  t' + (cfg.tCL + cfg.tBL) * cfg.processInterval + gap * cfg.processInterval ≤
    t + cfg.tCL * cfg.processInterval

instance (cfg : McConfig C) (gap t' t : Nat) : Decidable (cfg.Gap gap t' t) :=
  inferInstanceAs (Decidable (_ ≤ _))

/-- A column command is a read (`false`) or a write. -/
def McCommand.transfers : McCommand → Option Bool
  | .column _ _ _ isWrite _ => some isWrite
  | _ => none

/-- Data-bus exclusivity and turnaround, for the commands of a log -/
structure BusKept (cfg : McConfig C) (log : List (Nat × McCommand × Lqe C)) : Prop where
  half : cfg.fullDuplex = false → log.Pairwise fun a b => a.2.1.transfers.isSome →
    b.2.1.transfers.isSome → Disjoint (cfg.burst a.1) (cfg.burst b.1)
  writeToRead : cfg.fullDuplex = false → log.Pairwise fun a b => a.2.1.transfers = some true →
    b.2.1.transfers = some false → cfg.Gap cfg.tWRBUB a.1 b.1
  readToWrite : cfg.fullDuplex = false → log.Pairwise fun a b => a.2.1.transfers = some false →
    b.2.1.transfers = some true → cfg.Gap cfg.tRWBUB a.1 b.1
  full : cfg.fullDuplex = true → log.Pairwise fun a b => a.2.1.transfers.isSome →
    a.2.1.transfers = b.2.1.transfers → Disjoint (cfg.burst a.1) (cfg.burst b.1)

def slotAction (isWrite : Bool) : McBankAction := if isWrite then .write else .read

/-- A data path has the slots of every burst of some kinds, but for those before `t`. -/
structure Occupied (cfg : McConfig C) (kind : Bool → Prop) (log : List (Nat × McCommand × Lqe C))
    (t : Nat) (path : List (Nat × McBankAction)) : Prop where
  ordered : OrderedMap.Ordered path
  slots : ∀ e ∈ log, ∀ isWrite, e.2.1.transfers = some isWrite → kind isWrite → ∀ j < cfg.tBL,
    t ≤ e.1 + (cfg.tCL + j) * cfg.processInterval →
      (e.1 + (cfg.tCL + j) * cfg.processInterval, slotAction isWrite) ∈ path

theorem occupied_init : Occupied cfg kind ([] : List (Nat × McCommand × Lqe C)) t [] where
  ordered := OrderedMap.ordered_nil
  slots _ h := nomatch h

theorem Occupied.mono (h : Occupied cfg kind log t path) (le : t ≤ t') :
    Occupied cfg kind log t' path where
  ordered := h.ordered
  slots e he isWrite hw hk j hj later := h.slots e he isWrite hw hk j hj (le.trans later)

theorem Occupied.trimmed (h : Occupied cfg kind log t path) (trimmed : Trimmed t path path') :
    Occupied cfg kind log t path' := by
  rcases trimmed with rfl | rfl
  · exact h
  · refine ⟨OrderedMap.lowerBound_ordered h.ordered, fun e he isWrite hw hk j hj later => ?_⟩
    exact (OrderedMap.mem_lowerBound h.ordered).mpr ⟨h.slots e he isWrite hw hk j hj later, later⟩

theorem Occupied.other {e : Nat × McCommand × Lqe C} (h : Occupied cfg kind log t path)
    (other : ∀ isWrite, e.2.1.transfers = some isWrite → ¬ kind isWrite) :
    Occupied cfg kind (log ++ [e]) t path where
  ordered := h.ordered
  slots x hx isWrite hw hk := by
    rcases mem_snoc hx with hx | rfl
    · exact h.slots x hx isWrite hw hk
    · exact absurd hk (other isWrite hw)

def Free (cfg : McConfig C) (t : Nat) (path : List (Nat × McBankAction)) : Prop :=
  ∀ e ∈ path, t + cfg.tCL * cfg.processInterval ≤ e.1 →
    t + (cfg.tCL + cfg.tBL) * cfg.processInterval ≤ e.1

theorem ticks_of_le {n : Nat} (fits : (cfg.tCL + cfg.tBL) * cfg.processInterval < 2 ^ 32)
    (le : n ≤ cfg.tCL + cfg.tBL) : cfg.ticks n = n * cfg.processInterval :=
  McConfig.ticks_eq ((Nat.mul_le_mul_right _ le).trans_lt fits)

theorem free_of_pathFree (fits : (cfg.tCL + cfg.tBL) * cfg.processInterval < 2 ^ 32)
    (ordered : OrderedMap.Ordered path) (free : pathFree cfg t path = true) : Free cfg t path := by
  unfold pathFree at free
  rw [OrderedMap.clear_iff ordered, ticks_of_le fits (Nat.le_add_right _ _),
    ticks_of_le fits le_rfl] at free
  exact free

def reserveSlots (cfg : McConfig C) (t : Nat) (action : McBankAction) (n : Nat)
    (path : List (Nat × McBankAction)) : List (Nat × McBankAction) :=
  (List.range n).foldl
    (fun path j => OrderedMap.insert (t + cfg.ticks (cfg.tCL + j)) action path) path

theorem reserveSlots_succ (action : McBankAction) (n : Nat) :
    reserveSlots cfg t action (n + 1) path =
    OrderedMap.insert (t + cfg.ticks (cfg.tCL + n)) action (reserveSlots cfg t action n path) := by
  unfold reserveSlots
  rw [List.range_succ, List.foldl_append]
  rfl

/-- By induction over the slots: what is in the path stays, new entries are slots of the burst, and
a slot that was free is entered. -/
theorem reserveSlots_spec (fits : (cfg.tCL + cfg.tBL) * cfg.processInterval < 2 ^ 32)
    (ordered : OrderedMap.Ordered path) (free : Free cfg t path) (action : McBankAction) {n : Nat}
    (hn : n ≤ cfg.tBL) : OrderedMap.Ordered (reserveSlots cfg t action n path) ∧
      (∀ e ∈ path, e ∈ reserveSlots cfg t action n path) ∧
      (∀ e ∈ reserveSlots cfg t action n path,
        e ∈ path ∨ ∃ j < n, e.1 = t + (cfg.tCL + j) * cfg.processInterval) ∧
      ∀ j < n, (t + (cfg.tCL + j) * cfg.processInterval, action) ∈
        reserveSlots cfg t action n path := by
  have pos := cfg.processInterval_pos
  induction n with
  | zero =>
    exact ⟨ordered, fun _ h => h, fun _ h => .inl h, fun j hj => absurd hj (Nat.not_lt_zero j)⟩
  | succ n ih =>
    obtain ⟨ihOrdered, old, new, slots⟩ := ih (Nat.le_of_succ_le hn)
    rw [reserveSlots_succ, ticks_of_le fits (by omega)]
    refine ⟨OrderedMap.insert_ordered ihOrdered,
      fun e he => OrderedMap.mem_insert_of_mem (old e he), fun e he => ?_, fun j hj => ?_⟩
    · rcases OrderedMap.of_mem_insert he with rfl | he
      · exact .inr ⟨n, Nat.lt_succ_self n, rfl⟩
      · exact (new e he).imp_right fun ⟨j, hj, hk⟩ => ⟨j, Nat.lt_succ_of_lt hj, hk⟩
    · rcases Nat.lt_succ_iff_lt_or_eq.mp hj with hj | rfl
      · exact OrderedMap.mem_insert_of_mem (slots j hj)
      · refine OrderedMap.mem_insert_self fun e he same => ?_
        rcases new e he with he | ⟨i, hi, hk⟩
        · have least : cfg.tCL * cfg.processInterval ≤ (cfg.tCL + j) * cfg.processInterval :=
            Nat.mul_le_mul_right _ (Nat.le_add_right _ _)
          have most : (cfg.tCL + j) * cfg.processInterval <
            (cfg.tCL + cfg.tBL) * cfg.processInterval :=
            Nat.mul_lt_mul_of_pos_right (by omega) pos
          have beyond := free e he (by omega)
          omega
        · have eq := Nat.eq_of_mul_eq_mul_right pos (by omega :
            (cfg.tCL + i) * cfg.processInterval = (cfg.tCL + j) * cfg.processInterval)
          omega

theorem Occupied.reserve (fits : (cfg.tCL + cfg.tBL) * cfg.processInterval < 2 ^ 32)
    (h : Occupied cfg kind log t path) (free : Free cfg t path) {command : McCommand}
    {isWrite : Bool} (transfers : command.transfers = some isWrite) :
      Occupied cfg kind (log ++ [(t, command, lqe)]) t
      (MemoryController.reserve cfg t (slotAction isWrite) path) := by
  obtain ⟨ordered, old, -, slots⟩ :=
    reserveSlots_spec fits h.ordered free (slotAction isWrite) le_rfl
  refine ⟨ordered, fun e he w hw hk j hj later => ?_⟩
  rcases mem_snoc he with he | rfl
  · exact old _ (h.slots e he w hw hk j hj later)
  · cases transfers.symm.trans hw
    exact slots j hj

theorem Occupied.apart (h : Occupied cfg kind log t path) (free : Free cfg t path)
    {e : Nat × McCommand × Lqe C} (he : e ∈ log) {isWrite : Bool}
    (transfers : e.2.1.transfers = some isWrite) (hk : kind isWrite) (past : e.1 ≤ t)
    (aligned : cfg.processInterval ∣ e.1) (aligned' : cfg.processInterval ∣ t) :
    e.1 + cfg.tBL * cfg.processInterval ≤ t := by
  have pos := cfg.processInterval_pos
  obtain ⟨m, hm⟩ := Nat.dvd_sub aligned' aligned
  rw [Nat.mul_comm] at hm
  have between : t = e.1 + m * cfg.processInterval := by omega
  by_contra overlap
  have hj : m < cfg.tBL := by
    refine Nat.lt_of_mul_lt_mul_right (a := cfg.processInterval) ?_
    omega
  have first : e.1 + (cfg.tCL + m) * cfg.processInterval = t + cfg.tCL * cfg.processInterval := by
    rw [between, Nat.add_mul]
    omega
  have slot := h.slots e he isWrite transfers hk m hj (by omega)
  have beyond := free _ slot first.ge
  have length := Nat.mul_lt_mul_of_pos_right (by omega : cfg.tCL < cfg.tCL + cfg.tBL) pos
  dsimp only at beyond
  omega

/-- After a burst of another kind there is a bubble: without it, the last slot of that burst would
be met. -/
theorem Occupied.turned (fits : (cfg.tCL + cfg.tBL) * cfg.processInterval < 2 ^ 32) {bubble : Nat}
    (small : bubble ≤ cfg.tCL) (positive : 1 ≤ cfg.tBL) (half : cfg.fullDuplex = false)
    (h : Occupied cfg kind log t path) {e : Nat × McCommand × Lqe C} (he : e ∈ log) {isWrite : Bool}
    (transfers : e.2.1.transfers = some isWrite) (hk : kind isWrite)
    (apart : e.1 + cfg.tBL * cfg.processInterval ≤ t) (aligned : cfg.processInterval ∣ e.1)
    (aligned' : cfg.processInterval ∣ t)
    (turns : turnsAround cfg t bubble (slotAction isWrite) path = false) :
      cfg.Gap bubble e.1 t := by
  have pos := cfg.processInterval_pos
  obtain ⟨m, hm⟩ := Nat.dvd_sub aligned' aligned
  rw [Nat.mul_comm] at hm
  have between : t = e.1 + m * cfg.processInterval := by omega
  have enough : cfg.tBL ≤ m := by
    refine Nat.le_of_mul_le_mul_right (c := cfg.processInterval) ?_ pos
    omega
  have gap : cfg.tBL + bubble ≤ m := by
    by_contra close
    have wide : bubble * cfg.processInterval ≤ cfg.tCL * cfg.processInterval :=
      Nat.mul_le_mul_right _ small
    have low : (m + cfg.tCL) * cfg.processInterval ≤
        (cfg.tCL + (cfg.tBL - 1) + bubble) * cfg.processInterval :=
          Nat.mul_le_mul_right _ (by omega)
    have high : (cfg.tCL + (cfg.tBL - 1)) * cfg.processInterval <
      (m + cfg.tCL) * cfg.processInterval :=
      Nat.mul_lt_mul_of_pos_right (by omega) pos
    rw [Nat.add_mul m] at low high
    rw [Nat.add_mul _ bubble] at low
    have slot := h.slots e he isWrite transfers hk (cfg.tBL - 1) (by omega) (by omega)
    have met : turnsAround cfg t bubble (slotAction isWrite) path = true := by
      unfold turnsAround
      rw [decide_eq_true_iff, OrderedMap.meets_iff h.ordered, ticks_of_le fits (by omega),
        ticks_of_le fits (by omega)]
      refine ⟨half, _, slot, ?_, by dsimp only; omega, decide_eq_true rfl⟩
      rw [sub64, if_pos (by omega)]
      dsimp only
      omega
    rw [turns] at met
    cases met
  have apart := Nat.mul_le_mul_right cfg.processInterval gap
  rw [Nat.add_mul] at apart
  unfold McConfig.Gap
  rw [Nat.add_mul]
  omega

theorem disjoint_of_apart (apart : t' + cfg.tBL * cfg.processInterval ≤ t) :
    Disjoint (cfg.burst t') (cfg.burst t) := by
  refine Finset.disjoint_left.mpr fun x hx hx' => ?_
  have before := (Finset.mem_Ico.mp hx).2
  have after := (Finset.mem_Ico.mp hx').1
  rw [Nat.add_mul] at before
  omega

theorem free_of_lowerBound (fits : (cfg.tCL + cfg.tBL) * cfg.processInterval < 2 ^ 32)
    (ordered : OrderedMap.Ordered path)
    (free : pathFree cfg t (OrderedMap.lowerBound t path) = true) : Free cfg t path :=
  fun e he later =>
  free_of_pathFree fits (OrderedMap.lowerBound_ordered ordered) free e
    ((OrderedMap.mem_lowerBound ordered).mpr ⟨he, (Nat.le_add_right _ _).trans later⟩) later

def kindPath (mc : MemoryController C) : Bool → List (Nat × McBankAction)
  | false => mc.rdDpStatus
  | true => mc.wrDpStatus

/-- The bubble before a burst of this kind, after one of the other kind -/
def McConfig.bubble (cfg : McConfig C) : Bool → Nat
  | false => cfg.tWRBUB
  | true => cfg.tRWBUB

structure BurstPaths (cfg : McConfig C) (t : Nat) (mc mc' : MemoryController C) (isWrite : Bool) :
    Prop where
  dp : mc'.dpStatus = reserve cfg t (slotAction isWrite) mc.dpStatus
  own : kindPath mc' isWrite = reserve cfg t (slotAction isWrite) (kindPath mc isWrite)
  other : kindPath mc' (!isWrite) = kindPath mc (!isWrite)
  half : cfg.fullDuplex = false → pathFree cfg t (OrderedMap.lowerBound t mc.dpStatus) = true
  full : cfg.fullDuplex = true →
    pathFree cfg t (OrderedMap.lowerBound t (kindPath mc isWrite)) = true
  turns : turnsAround cfg t (cfg.bubble isWrite) (slotAction (!isWrite))
    (OrderedMap.lowerBound t mc.dpStatus) = false

theorem burstPaths {mc mc' : MemoryController C} {action : McBankAction} {calls : List (Call C)}
    {deleted : List (Lqe C)} (can : CanAccess cfg t mc lqe)
    (h : Bursts cfg t mc lqe action mc' calls deleted) :
    BurstPaths cfg t mc mc' (action = .write) := by
  rcases bursts_timed h with ⟨rfl, read, rfl⟩ | ⟨rfl, write, rfl⟩
  · have met := can.read read
    unfold readMeets at met
    rw [decide_eq_true_iff] at met
    obtain ⟨free, turns, -⟩ := met
    refine ⟨rfl, rfl, rfl, fun half => ?_, fun full => ?_, turns⟩
    · rwa [half] at free
    · rwa [full] at free
  · have met := can.write write
    unfold writeMeets at met
    rw [decide_eq_true_iff] at met
    obtain ⟨free, turns, -⟩ := met
    refine ⟨rfl, rfl, rfl, fun half => ?_, fun full => ?_, turns⟩
    · rwa [half] at free
    · rwa [full] at free

/-- Where the data paths know the bursts of a log, and those keep the bus. -/
structure BusTimed (cfg : McConfig C) (mc : MemoryController C)
    (log : List (Nat × McCommand × Lqe C)) (t : Nat) : Prop where
  half : cfg.fullDuplex = false → Occupied cfg (fun _ => True) log t mc.dpStatus
  full : cfg.fullDuplex = true → ∀ isWrite, Occupied cfg (· = isWrite) log t (kindPath mc isWrite)
  past : ∀ e ∈ log, e.1 ≤ t
  aligned : ∀ e ∈ log, cfg.processInterval ∣ e.1
  kept : BusKept cfg log

theorem BusTimed.mono {mc : MemoryController C} (h : BusTimed cfg mc log t) (le : t ≤ t') :
    BusTimed cfg mc log t' where
  half half := (h.half half).mono le
  full full isWrite := (h.full full isWrite).mono le
  past e he := (h.past e he).trans le
  aligned := h.aligned
  kept := h.kept

theorem BusTimed.prepared {mc mc' : MemoryController C} (h : BusTimed cfg mc log t)
    (prepared : Prepared cfg t mc mc') : BusTimed cfg mc' log t where
  half half := (h.half half).trimmed prepared.dp
  full full isWrite := by
    cases isWrite with
    | false => exact (h.full full false).trimmed prepared.rdDp
    | true => exact (h.full full true).trimmed prepared.wrDp
  past := h.past
  aligned := h.aligned
  kept := h.kept

theorem pairwise_snoc {α : Type} {R : α → α → Prop} {l : List α} {e : α} (h : l.Pairwise R)
    (he : ∀ x ∈ l, R x e) : (l ++ [e]).Pairwise R :=
  List.pairwise_append.mpr ⟨h, List.pairwise_singleton R e,
    fun x hx _ hy => List.mem_singleton.mp hy ▸ he x hx⟩

theorem BusKept.row {e : Nat × McCommand × Lqe C} (h : BusKept cfg log)
    (row : e.2.1.transfers = none) : BusKept cfg (log ++ [e]) where
  half half := pairwise_snoc (h.half half) fun x _ _ he => by simp [row] at he
  writeToRead half := pairwise_snoc (h.writeToRead half) fun x _ _ he => by simp [row] at he
  readToWrite half := pairwise_snoc (h.readToWrite half) fun x _ _ he => by simp [row] at he
  full full := pairwise_snoc (h.full full) fun x _ hx he => by simp [he, row] at hx

theorem BusKept.column {e : Nat × McCommand × Lqe C} {isWrite : Bool} (h : BusKept cfg log)
    (transfers : e.2.1.transfers = some isWrite)
    (half : cfg.fullDuplex = false → ∀ x ∈ log, ∀ w, x.2.1.transfers = some w →
      x.1 + cfg.tBL * cfg.processInterval ≤ e.1)
    (turned : cfg.fullDuplex = false → ∀ x ∈ log, x.2.1.transfers = some (!isWrite) →
      cfg.Gap (cfg.bubble isWrite) x.1 e.1)
    (full : cfg.fullDuplex = true → ∀ x ∈ log, x.2.1.transfers = some isWrite →
      x.1 + cfg.tBL * cfg.processInterval ≤ e.1) : BusKept cfg (log ++ [e]) where
  half h' := pairwise_snoc (h.half h') fun x hx hw _ => by
    obtain ⟨w, hw⟩ := Option.isSome_iff_exists.mp hw
    exact disjoint_of_apart (half h' x hx w hw)
  writeToRead h' := pairwise_snoc (h.writeToRead h') fun x hx hw he => by
    cases transfers.symm.trans he
    exact turned h' x hx hw
  readToWrite h' := pairwise_snoc (h.readToWrite h') fun x hx hw he => by
    cases transfers.symm.trans he
    exact turned h' x hx hw
  full h' := pairwise_snoc (h.full h') fun x hx _ he =>
    disjoint_of_apart (full h' x hx (he.trans transfers))

theorem bus_row {mc mc' : MemoryController C} {e : Nat × McCommand × Lqe C}
    (h : BusTimed cfg mc log t) (now : e.1 = t) (aligned : cfg.processInterval ∣ t)
    (row : e.2.1.transfers = none) (dp : mc'.dpStatus = mc.dpStatus)
    (kinds : kindPath mc' = kindPath mc) : BusTimed cfg mc' (log ++ [e]) t where
  half half := dp ▸ (h.half half).other fun w hw => by cases row.symm.trans hw
  full full isWrite := kinds ▸ (h.full full isWrite).other fun w hw => by cases row.symm.trans hw
  past x hx := by
    rcases mem_snoc hx with hx | rfl
    · exact h.past x hx
    · exact now.le
  aligned x hx := by
    rcases mem_snoc hx with hx | rfl
    · exact h.aligned x hx
    · exact now ▸ aligned
  kept := h.kept.row row

/-- What a configuration has to be for the bus to be kept -/
structure McConfig.Turns (cfg : McConfig C) : Prop where
  fits : (cfg.tCL + cfg.tBL) * cfg.processInterval < 2 ^ 32
  positive : 1 ≤ cfg.tBL
  tWRBUB : cfg.tWRBUB ≤ cfg.tCL
  tRWBUB : cfg.tRWBUB ≤ cfg.tCL

theorem bus_column (turns : cfg.Turns) {mc mc' : MemoryController C} {command : McCommand}
    {isWrite : Bool} (h : BusTimed cfg mc log t) (aligned : cfg.processInterval ∣ t)
    (transfers : command.transfers = some isWrite) (paths : BurstPaths cfg t mc mc' isWrite) :
    BusTimed cfg mc' (log ++ [(t, command, lqe)]) t := by
  have small : cfg.bubble isWrite ≤ cfg.tCL := by
    cases isWrite with
    | false => exact turns.tWRBUB
    | true => exact turns.tRWBUB
  have apart : cfg.fullDuplex = false → ∀ x ∈ log, ∀ w, x.2.1.transfers = some w →
      x.1 + cfg.tBL * cfg.processInterval ≤ t := fun half x hx w hw =>
    (h.half half).apart (free_of_lowerBound turns.fits (h.half half).ordered (paths.half half)) hx
      hw
      trivial (h.past x hx) (h.aligned x hx) aligned
  refine ⟨fun half => ?_, fun full w => ?_, fun x hx => ?_, fun x hx => ?_,
    h.kept.column transfers apart (fun half x hx hw => ?_) fun full x hx hw => ?_⟩
  · rw [paths.dp]
    exact (h.half half).reserve turns.fits
      (free_of_lowerBound turns.fits (h.half half).ordered (paths.half half)) transfers
  · by_cases own : w = isWrite
    · subst own
      rw [paths.own]
      exact (h.full full w).reserve turns.fits
        (free_of_lowerBound turns.fits (h.full full w).ordered (paths.full full)) transfers
    · have other : w = !isWrite := Bool.eq_not_of_ne own
      subst other
      rw [paths.other]
      refine (h.full full _).other fun w hw same => ?_
      cases transfers.symm.trans hw
      exact own same.symm
  · rcases mem_snoc hx with hx | rfl
    · exact h.past x hx
    · exact le_rfl
  · rcases mem_snoc hx with hx | rfl
    · exact h.aligned x hx
    · exact aligned
  · exact ((h.half half).trimmed (.inr rfl)).turned turns.fits small turns.positive half
      hx hw trivial
      (apart half x hx _ hw) (h.aligned x hx) aligned paths.turns
  · exact (h.full full isWrite).apart
      (free_of_lowerBound turns.fits (h.full full isWrite).ordered (paths.full full)) hx hw rfl
      (h.past x hx) (h.aligned x hx) aligned

theorem bus_does (turns : cfg.Turns) {mc mc' : MemoryController C} {effects : McEffects C}
    (h : BusTimed cfg mc log t) (aligned : cfg.processInterval ∣ t)
    (does : Does cfg t mc mc' effects) :
    BusTimed cfg mc' (log ++ (effects.command.map fun c => (t, c)).toList) t := by
  cases does with
  | idle => exact (List.append_nil log).symm ▸ h
  | activate hi can => exact bus_row h rfl aligned rfl rfl rfl
  | precharge hi can => exact bus_row h rfl aligned rfl rfl rfl
  | access hi can accesses =>
    obtain ⟨mc₁, bursts, eq⟩ := accesses.bursts
    have paths := burstPaths can bursts
    have kinds : kindPath mc' = kindPath mc₁ := by
      funext isWrite
      rw [eq]
      cases isWrite <;> rfl
    rw [accesses.command]
    refine bus_column turns h aligned rfl
      ⟨?_, kinds ▸ paths.own, kinds ▸ paths.other, paths.half, paths.full, paths.turns⟩
    rw [eq]
    exact paths.dp

namespace McSystem

variable {s s' : McSystem C}

theorem addReqEvent_wakeups (mc : MemoryController C) (time : Nat) (lqe : Lqe C) :
    ∀ u ∈ (mc.addReqEvent cfg time lqe).2.wakeups, cfg.processInterval ∣ u := by
  unfold addReqEvent
  dsimp only
  intro u hu
  split at hu
  · split at hu <;> cases hu
  · split at hu
    · split at hu <;> cases hu
    · rw [List.mem_singleton.mp hu]
      exact dvd_ceilByY time _

theorem events_aligned (refresh : cfg.processInterval ∣ cfg.refreshInterval) (run : Run cfg s) :
    ∀ u ∈ s.agenda.events, cfg.processInterval ∣ u := by
  induction run with
  | init =>
    intro u hu
    unfold init at hu
    dsimp only at hu
    split at hu
    · cases hu
    · rw [Finset.mem_singleton.mp hu]
      exact refresh
  | @step s s' e run timely hs ih =>
    cases e with
    | add time lqe =>
      rw [step_add_eq hs]
      intro u hu
      rcases Agenda.mem_foldl_add.mp hu with hu | hu
      · exact addReqEvent_wakeups s.mc time lqe u hu
      · exact ih u hu
    | advance t =>
      cases hs
      exact ih
    | process t =>
      unfold McSystem.step at hs
      cases hp : s.mc.processEvent cfg t with
      | error a => simp [hp, bind, Except.bind] at hs
      | ok r =>
        simp only [hp, bind, Except.bind, pure, Except.pure, Except.ok.injEq] at hs
        subst hs
        intro u hu
        rcases Agenda.mem_foldl_add.mp hu with hu | hu
        · rw [(processEvent_processed.of_ok hp).wakeups] at hu
          split at hu
          · cases hu
          · rw [List.mem_singleton.mp hu]
            exact Nat.dvd_add (ih t timely.1) (Nat.dvd_refl _)
        · exact ih u (Finset.mem_of_mem_erase hu)

theorem addReqEvent_paths (cfg : McConfig C) (mc : MemoryController C) (time : Nat) (lqe : Lqe C) :
    (mc.addReqEvent cfg time lqe).1.dpStatus = mc.dpStatus ∧
      kindPath (mc.addReqEvent cfg time lqe).1 = kindPath mc := by
  unfold addReqEvent
  dsimp only
  split
  · split <;> exact ⟨rfl, rfl⟩
  · split
    · split <;> exact ⟨rfl, rfl⟩
    · exact ⟨rfl, rfl⟩

theorem bus_run (turns : cfg.Turns) (refresh : cfg.processInterval ∣ cfg.refreshInterval)
    (run : Run cfg s) : BusTimed cfg s.mc s.log (s.agenda.now.getD 0) := by
  induction run with
  | init =>
    refine ⟨fun _ => occupied_init, fun _ isWrite => ?_, ?_, ?_, ?_⟩
    · cases isWrite <;> exact occupied_init
    · exact fun _ h => nomatch h
    · exact fun _ h => nomatch h
    · exact ⟨fun _ => .nil, fun _ => .nil, fun _ => .nil, fun _ => .nil⟩
  | @step s s' e run timely hs ih =>
    have later : ∀ t, (∀ n ∈ s.agenda.now, n ≤ t) → s.agenda.now.getD 0 ≤ t := fun t ht => by
      cases hn : s.agenda.now with
      | none => exact Nat.zero_le t
      | some n => exact ht n hn
    cases e with
    | add time lqe =>
      obtain ⟨log, now⟩ := step_add_log hs
      obtain ⟨dp, kinds⟩ := addReqEvent_paths cfg s.mc time lqe
      rw [log, now, step_add_eq hs]
      exact ⟨fun half => dp ▸ ih.half half, fun full => kinds ▸ ih.full full, ih.past,
        ih.aligned, ih.kept⟩
    | advance t =>
      cases hs
      exact ih.mono (later t timely.1)
    | process t =>
      obtain ⟨mc, effects, prepared, does, log, now⟩ := step_process hs
      have aligned := events_aligned refresh run t timely.1
      have before := (ih.mono (later t timely.2.1)).prepared prepared
      rw [log, now]
      exact bus_does turns before aligned does

/-- Data-bus exclusivity and turnaround, where bursts are not empty and their length fits. -/
theorem bus_kept (fits : (cfg.tCL + cfg.tBL) * cfg.processInterval < 2 ^ 32)
    (positive : 1 ≤ cfg.tBL) (refresh : cfg.processInterval ∣ cfg.refreshInterval)
    (tWRBUB : cfg.tWRBUB ≤ cfg.tCL) (tRWBUB : cfg.tRWBUB ≤ cfg.tCL) (run : Run cfg s) :
      BusKept cfg s.log :=
  (bus_run ⟨fits, positive, tWRBUB, tRWBUB⟩ refresh run).kept

def busTimes (log : List (Nat × McCommand × Lqe C)) : List (Nat × Option Bool) :=
  log.map fun e => (e.1, e.2.1.transfers)

def pairOfPaths : McConfig Nat := { pairOfBanks with fullDuplex := true, tWTR := 0 }

/-- On one bus the reads wait for the writes; on two paths a read burst begins at 70, inside the
write burst from 60 to 80. -/
theorem bus_kept_both_modes :
    (∃ s, Run pairOfBanks s ∧
      busTimes s.log = [(10, none), (20, none), (30, some true), (50, some true),
      (110, some false), (130, some false)] ∧ BusKept pairOfBanks s.log) ∧
    ∃ s, Run pairOfPaths s ∧
      busTimes s.log = [(10, none), (20, none), (30, some true), (40, some false),
      (60, some false), (120, some true)] ∧ BusKept pairOfPaths s.log := by
  have one : Meets (fun _ => False)
    (fun s => busTimes s.log = [(10, none), (20, none), (30, some true),
      (50, some true), (110, some false), (130, some false)])
      ((init pairOfBanks).follow pairOfBanks writesAndReads) := by decide +kernel
  have two : Meets (fun _ => False)
    (fun s => busTimes s.log = [(10, none), (20, none), (30, some true),
      (40, some false), (60, some false), (120, some true)])
      ((init pairOfPaths).follow pairOfPaths (writesAndReads.take 17)) := by decide +kernel
  obtain ⟨s, hs, times⟩ := one.result
  obtain ⟨s', hs', times'⟩ := two.result
  have run := Run.init.follow hs
  have run' := Run.init.follow hs'
  exact ⟨⟨s, run, times, bus_kept (by decide) (by decide) (by decide) (by decide) (by decide) run⟩,
    s', run', times', bus_kept (by decide) (by decide) (by decide) (by decide) (by decide) run'⟩

/-- A burst of no slots leaves nothing to turn around after. -/
def emptyBursts : McConfig Nat := { pairOfBanks with tBL := 0, tWRBUB := 2, tWTR := 0 }

/-- The slots of a burst are half of all 32-bit times apart. -/
def wideBursts : McConfig Nat :=
  { wideUnits with
    tRP := pairOfBanks.tRP
    tRAS := pairOfBanks.tRAS
    tRRBUB := pairOfBanks.tRRBUB
    tRCD := 0
    tRR := 0
    tCL := 0
    tBL := 2
    tBBL := 0
    tWRBUB := 0
    tRWBUB := 0
    tWTR := 0 }

theorem emptyBursts_not_kept : ∃ s, Run emptyBursts s ∧ ¬ BusKept emptyBursts s.log := by
  have ends : Meets (fun _ => False)
      (fun s => busTimes s.log = [(10, none), (30, some true), (40, some false)])
      ((init emptyBursts).follow emptyBursts
        [.add 0 { path := [], type := .evict, address := 0 },
          .add 0 { path := [], type := .read, address := 8 },
          .process 0, .process 10, .process 20, .process 30, .process 40]) := by decide +kernel
  obtain ⟨s, hs, times⟩ := ends.result
  refine ⟨s, Run.init.follow hs, fun kept => ?_⟩
  have pairs : (busTimes s.log).Pairwise fun a b => a.2 = some true → b.2 = some false →
    emptyBursts.Gap 2 a.1 b.1 := List.pairwise_map.mpr (kept.writeToRead rfl)
  rw [times] at pairs
  exact absurd pairs (by decide)

theorem wideBursts_not_kept : ∃ s, Run wideBursts s ∧ ¬ BusKept wideBursts s.log := by
  have ends : Meets (fun _ => False)
      (fun s => busTimes s.log = [(0, none), (2 ^ 31, some false), (2 ^ 32, some false)])
      ((init wideBursts).follow wideBursts
        [.add 0 { path := [], type := .read, address := 0 },
          .add 0 { path := [], type := .read, address := 8 },
          .process 0, .process (2 ^ 31), .process (2 ^ 32)]) := by decide +kernel
  obtain ⟨s, hs, times⟩ := ends.result
  refine ⟨s, Run.init.follow hs, fun kept => ?_⟩
  have pairs : (busTimes s.log).Pairwise fun a b => a.2.isSome → b.2.isSome →
    Disjoint (wideBursts.burst a.1) (wideBursts.burst b.1) := List.pairwise_map.mpr (kept.half rfl)
  rw [times] at pairs
  have apart := (List.pairwise_cons.mp (List.pairwise_cons.mp pairs).2).1 _
    (List.mem_singleton_self _) rfl rfl
  have both : 2 ^ 32 ∈ wideBursts.burst (2 ^ 31) ∧ 2 ^ 32 ∈ wideBursts.burst (2 ^ 32) :=
    ⟨Finset.mem_Ico.mpr (by decide), Finset.mem_Ico.mpr (by decide)⟩
  exact Finset.disjoint_left.mp apart both.1 both.2

theorem bus_not_kept : (∃ s, Run emptyBursts s ∧ ¬ BusKept emptyBursts s.log) ∧
    (∃ s, Run wideBursts s ∧ ¬ BusKept wideBursts s.log) ∧
    ∀ cfg ∈ [emptyBursts, wideBursts], cfg.processInterval ∣ cfg.refreshInterval ∧
      cfg.tWRBUB ≤ cfg.tCL ∧ cfg.tRWBUB ≤ cfg.tCL := by
  refine ⟨emptyBursts_not_kept, wideBursts_not_kept, fun cfg hc => ?_⟩
  rcases List.mem_cons.mp hc with rfl | hc
  · decide
  · rw [List.mem_singleton.mp hc]
    decide

end McSystem
end McSim
