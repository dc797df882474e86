import McSim.MemoryControllerConservation

/-! The timing of DRAM commands.
Each command is compared with the history of the commands before it. What a bank's action time means
depends on the state of the bank; `BankTimed` says it for every state. -/

namespace McSim

open MemoryController Contract

variable {C : Type} {cfg : McConfig C} {t rank bank : Nat} {lqe : Lqe C}

/-- What is multiplied by `process_interval` stays below 2^32: a parameter, or the two that tell
when a burst ends. -/
structure McConfig.Fits (cfg : McConfig C) : Prop where
  tRCD : cfg.tRCD * cfg.processInterval < 2 ^ 32
  tRR : cfg.tRR * cfg.processInterval < 2 ^ 32
  tRP : cfg.tRP * cfg.processInterval < 2 ^ 32
  tBBL : cfg.tBBL * cfg.processInterval < 2 ^ 32
  tRAS : cfg.tRAS * cfg.processInterval < 2 ^ 32
  tRRBUB : cfg.tRRBUB * cfg.processInterval < 2 ^ 32
  tWTR : cfg.tWTR * cfg.processInterval < 2 ^ 32
  burst : (cfg.tCL + cfg.tBL) * cfg.processInterval < 2 ^ 32

theorem McConfig.ticks_eq {n : Nat} (h : n * cfg.processInterval < 2 ^ 32) :
    cfg.ticks n = n * cfg.processInterval := Nat.mod_eq_of_lt h

/-- The row that is open in a bank after a command: when it was opened, and its page -/
def rowAfter (rank bank : Nat) (row : Option (Nat × Nat)) :
    Nat × McCommand × Lqe C → Option (Nat × Nat)
  | (t, .activate r b page, _) => if r = rank ∧ b = bank then some (t, page) else row
  | (_, .precharge r b, _) => if r = rank ∧ b = bank then none else row
  | (_, .column r b _ _ autoPrecharge, _) =>
    if r = rank ∧ b = bank ∧ autoPrecharge then none else row

def openRow (rank bank : Nat) (log : List (Nat × McCommand × Lqe C)) : Option (Nat × Nat) :=
  log.foldl (rowAfter rank bank) none

def readAfter (last : Option (Nat × Nat)) : Nat × McCommand × Lqe C → Option (Nat × Nat)
  | (t, .column rank _ _ false _, _) => some (rank, t)
  | _ => last

def lastRead (log : List (Nat × McCommand × Lqe C)) : Option (Nat × Nat) := log.foldl readAfter none

/-- `t` is at least `n` units of `process_interval` after every command of a kind. -/
def McConfig.Since (cfg : McConfig C) (log : List (Nat × McCommand × Lqe C)) (t n : Nat)
    (kind : McCommand → Prop) : Prop :=
  ∀ e ∈ log, kind e.2.1 → e.1 + n * cfg.processInterval ≤ t

namespace McCommand

def Activates (rank : Nat) : McCommand → Prop
  | .activate r _ _ => r = rank
  | _ => False

def ActivatesBank (rank bank : Nat) : McCommand → Prop
  | .activate r b _ => r = rank ∧ b = bank
  | _ => False

def Accesses (rank bank : Nat) : McCommand → Prop
  | .column r b _ _ _ => r = rank ∧ b = bank
  | _ => False

def Writes (rank : Nat) : McCommand → Prop
  | .column r _ _ isWrite _ => r = rank ∧ isWrite = true
  | _ => False

def Goes (rank bank : Nat) : McCommand → Prop
  | .activate r b _ | .precharge r b | .column r b _ _ _ => r = rank ∧ b = bank

end McCommand

structure ActivateTimed (cfg : McConfig C) (before : List (Nat × McCommand × Lqe C))
    (t rank bank : Nat) : Prop where
  tRR : cfg.Since before t cfg.tRR (McCommand.Activates rank)
  rowCycle : cfg.Since before t (cfg.tRAS + cfg.tRP) (McCommand.ActivatesBank rank bank)

structure ReadTimed (cfg : McConfig C) (before : List (Nat × McCommand × Lqe C)) (t rank : Nat) :
    Prop where
  tWTR : 0 < cfg.tWTR → cfg.Since before t (cfg.tCL + cfg.tBL + cfg.tWTR) (McCommand.Writes rank)
  tRRBUB : ∀ r t', lastRead before = some (r, t') → r ≠ rank →
    t' + cfg.tRRBUB * cfg.processInterval ≤ t

structure ColumnTimed (cfg : McConfig C) (before : List (Nat × McCommand × Lqe C))
    (t rank bank page : Nat) (isWrite : Bool) : Prop where
  opened : ∃ t₀, openRow rank bank before = some (t₀, page) ∧
    t₀ + cfg.tRCD * cfg.processInterval ≤ t
  tBBL : cfg.Since before t cfg.tBBL (McCommand.Accesses rank bank)
  read : isWrite = false → ReadTimed cfg before t rank

/-- A command keeps the timing of the DRAM, given those before it. -/
def Lawful (cfg : McConfig C) (before : List (Nat × McCommand × Lqe C)) :
    Nat × McCommand × Lqe C → Prop
  | (t, .activate rank bank _, _) => ActivateTimed cfg before t rank bank
  | (_, .precharge _ _, _) => True
  | (t, .column rank bank page isWrite _, _) => ColumnTimed cfg before t rank bank page isWrite

structure BankTimed (cfg : McConfig C) (log : List (Nat × McCommand × Lqe C)) (rank bank : Nat)
    (b : BankStatus) : Prop where
  opened : MemoryController.IsOpen b → openRow rank bank log = some (b.lastActivateTime, b.pageNum)
  activated : b.actionType = .activate → b.lastActivateTime ≤ b.actionTime
  accessed : b.actionType = .read ∨ b.actionType = .write →
    b.lastActivateTime + cfg.tRCD * cfg.processInterval ≤ b.actionTime
  closed : b.actionType = .precharge →
    b.lastActivateTime + (cfg.tRAS + cfg.tRP) * cfg.processInterval ≤ b.actionTime
  idle : b.actionType = .idle → ∀ e ∈ log, ¬ e.2.1.ActivatesBank rank bank
  last : ∀ e ∈ log, e.2.1.ActivatesBank rank bank → e.1 ≤ b.lastActivateTime
  columns : ∀ e ∈ log, e.2.1.Accesses rank bank → e.1 ≤ b.actionTime

theorem openRow_append (log : List (Nat × McCommand × Lqe C)) (e : Nat × McCommand × Lqe C) :
    openRow rank bank (log ++ [e]) = rowAfter rank bank (openRow rank bank log) e := by
  rw [openRow, List.foldl_append]
  rfl

theorem lastRead_append (log : List (Nat × McCommand × Lqe C)) (e : Nat × McCommand × Lqe C) :
    lastRead (log ++ [e]) = readAfter (lastRead log) e := by
  rw [lastRead, List.foldl_append]
  rfl

theorem rowAfter_other {row : Option (Nat × Nat)} {e : Nat × McCommand × Lqe C}
    (other : ¬ e.2.1.Goes rank bank) : rowAfter rank bank row e = row := by
  obtain ⟨t, command, lqe⟩ := e
  cases command with
  | activate r b page => exact if_neg other
  | precharge r b => exact if_neg other
  | column r b page isWrite autoPrecharge => exact if_neg fun h => other ⟨h.1, h.2.1⟩

theorem McCommand.ActivatesBank.goes {command : McCommand} (h : command.ActivatesBank rank bank) :
    command.Goes rank bank := by
  cases command with
  | activate r b page => exact h
  | precharge r b => exact h.elim
  | column r b page isWrite autoPrecharge => exact h.elim

theorem McCommand.Accesses.goes {command : McCommand} (h : command.Accesses rank bank) :
    command.Goes rank bank := by
  cases command with
  | activate r b page => exact h.elim
  | precharge r b => exact h.elim
  | column r b page isWrite autoPrecharge => exact h

theorem mem_snoc {α : Type} {log : List α} {e x : α} (h : x ∈ log ++ [e]) : x ∈ log ∨ x = e := by
  simpa using h

theorem BankTimed.other {log : List (Nat × McCommand × Lqe C)} {b : BankStatus}
    {e : Nat × McCommand × Lqe C} (h : BankTimed cfg log rank bank b)
    (other : ¬ e.2.1.Goes rank bank) : BankTimed cfg (log ++ [e]) rank bank b where
  opened hb := by
    rw [openRow_append, rowAfter_other other]
    exact h.opened hb
  activated := h.activated
  accessed := h.accessed
  closed := h.closed
  idle hb x hx activates := by
    rcases mem_snoc hx with hx | rfl
    · exact h.idle hb x hx activates
    · exact other activates.goes
  last x hx activates := by
    rcases mem_snoc hx with hx | rfl
    · exact h.last x hx activates
    · exact absurd activates.goes other
  columns x hx accesses := by
    rcases mem_snoc hx with hx | rfl
    · exact h.columns x hx accesses
    · exact absurd accesses.goes other

theorem bankTimed_init : BankTimed cfg ([] : List (Nat × McCommand × Lqe C)) rank bank {} where
  opened h := by simp [MemoryController.IsOpen] at h
  activated h := by cases h
  accessed h := by simp at h
  closed h := by cases h
  idle _ _ h := by cases h
  last _ h := by cases h
  columns _ h := by cases h

theorem BankTimed.activate {log : List (Nat × McCommand × Lqe C)} (past : ∀ e ∈ log, e.1 ≤ t)
    (page : Nat) : BankTimed cfg (log ++ [(t, .activate rank bank page, lqe)]) rank bank
      { actionTime := t, pageNum := page, actionType := .activate, lastActivateTime := t } where
  opened _ := by
    rw [openRow_append]
    exact if_pos ⟨rfl, rfl⟩
  activated _ := le_rfl
  accessed h := by simp at h
  closed h := by cases h
  idle h := by cases h
  last x hx _ := by
    rcases mem_snoc hx with hx | rfl
    · exact past x hx
    · exact le_rfl
  columns x hx accesses := by
    rcases mem_snoc hx with hx | rfl
    · exact past x hx
    · exact accesses.elim

theorem closedAt_eq (fits : cfg.Fits) (b : BankStatus) : closedAt cfg t b =
    cfg.tRP * cfg.processInterval + max t
      (cfg.tRAS * cfg.processInterval + b.lastActivateTime) := by
  rw [closedAt, McConfig.ticks_eq fits.tRP, McConfig.ticks_eq fits.tRAS]

theorem le_closedAt (fits : cfg.Fits) (b : BankStatus) : t ≤ closedAt cfg t b := by
  rw [closedAt_eq fits]
  omega

theorem rowCycle_le_closedAt (fits : cfg.Fits) (b : BankStatus) :
    b.lastActivateTime + (cfg.tRAS + cfg.tRP) * cfg.processInterval ≤ closedAt cfg t b := by
  rw [closedAt_eq fits, Nat.add_mul]
  omega

theorem BankTimed.shut (fits : cfg.Fits) {log : List (Nat × McCommand × Lqe C)} {b : BankStatus}
    {e : Nat × McCommand × Lqe C} (h : BankTimed cfg log rank bank b) (past : ∀ e ∈ log, e.1 ≤ t)
    (now : e.1 = t) (row : ¬ e.2.1.ActivatesBank rank bank) :
    BankTimed cfg (log ++ [e]) rank bank
      { b with actionTime := closedAt cfg t b, actionType := .precharge } where
  opened h := by simp [MemoryController.IsOpen] at h
  activated h := by cases h
  accessed h := by simp at h
  closed _ := rowCycle_le_closedAt fits b
  idle h := by cases h
  last x hx activates := by
    rcases mem_snoc hx with hx | rfl
    · exact h.last x hx activates
    · exact absurd activates row
  columns x hx _ := by
    rcases mem_snoc hx with hx | rfl
    · exact (past x hx).trans (le_closedAt fits b)
    · exact now.le.trans (le_closedAt fits b)

theorem BankTimed.stay {log : List (Nat × McCommand × Lqe C)} {b : BankStatus} {page u : Nat}
    {isWrite : Bool} {action : McBankAction} (h : BankTimed cfg log rank bank b)
    (past : ∀ e ∈ log, e.1 ≤ t) (opened : MemoryController.IsOpen b) (later : t ≤ u)
    (tRCD : b.lastActivateTime + cfg.tRCD * cfg.processInterval ≤ t)
    (column : action = .read ∨ action = .write) :
    BankTimed cfg (log ++ [(t, .column rank bank page isWrite false, lqe)]) rank bank
      { b with actionTime := u, actionType := action } where
  opened _ := by
    rw [openRow_append]
    refine (if_neg ?_).trans (h.opened opened)
    simp
  activated ha := by
    have ha : action = .activate := ha
    rcases column with rfl | rfl <;> cases ha
  accessed _ := tRCD.trans later
  closed hc := by
    have hc : action = .precharge := hc
    rcases column with rfl | rfl <;> cases hc
  idle hi := by
    have hi : action = .idle := hi
    rcases column with rfl | rfl <;> cases hi
  last x hx activates := by
    rcases mem_snoc hx with hx | rfl
    · exact h.last x hx activates
    · exact activates.elim
  columns x hx _ := by
    rcases mem_snoc hx with hx | rfl
    · exact (past x hx).trans later
    · exact later

theorem setBank_bankStatus (mc : MemoryController C) (r b : Nat) (status : BankStatus) :
    (mc.setBank r b status).bankStatus rank bank =
      if rank = r ∧ bank = b then status else mc.bankStatus rank bank := by
  unfold setBank
  by_cases hr : rank = r
  · subst hr
    simp [Function.update_apply]
  · simp [hr]

structure Timed (cfg : McConfig C) (mc : MemoryController C)
    (log : List (Nat × McCommand × Lqe C)) :
    Prop where
  banks : ∀ rank bank, BankTimed cfg log rank bank (mc.bankStatus rank bank)
  activates : ∀ rank, ∀ e ∈ log, e.2.1.Activates rank → e.1 ≤ mc.lastActivateTime rank
  writes : ∀ rank, ∀ e ∈ log, e.2.1.Writes rank →
    e.1 + (cfg.tCL + cfg.tBL) * cfg.processInterval ≤ mc.lastWriteTime rank
  read : ∀ last, lastRead log = some last → mc.lastReadTime = last
  own : ∀ e ∈ log, e.2.1.IsFor cfg e.2.2
  lawful : ∀ before e after, log = before ++ e :: after → Lawful cfg before e

theorem lawful_snoc {log : List (Nat × McCommand × Lqe C)} {e : Nat × McCommand × Lqe C}
    (h : ∀ before e after, log = before ++ e :: after → Lawful cfg before e) (he : Lawful cfg log e)
    (before : List (Nat × McCommand × Lqe C)) (x : Nat × McCommand × Lqe C)
    (after : List (Nat × McCommand × Lqe C)) (split : log ++ [e] = before ++ x :: after) :
    Lawful cfg before x := by
  rcases List.eq_nil_or_concat' after with rfl | ⟨front, y, rfl⟩
  · obtain ⟨rfl, hx⟩ := List.append_inj' split rfl
    cases hx
    exact he
  · rw [← List.cons_append, ← List.append_assoc] at split
    exact h before x front (List.append_inj' split rfl).1

theorem Timed.issue {mc mc' : MemoryController C} {log : List (Nat × McCommand × Lqe C)}
    {e : Nat × McCommand × Lqe C} {status : BankStatus} (h : Timed cfg mc log)
    (lawful : Lawful cfg log e) (own : e.2.1.IsFor cfg e.2.2) (goes : e.2.1.Goes rank bank)
    (hbank : BankTimed cfg (log ++ [e]) rank bank status)
    (banks : ∀ r b, mc'.bankStatus r b = if r = rank ∧ b = bank then status else mc.bankStatus r b)
    (activates : ∀ r, ∀ x ∈ log ++ [e], x.2.1.Activates r → x.1 ≤ mc'.lastActivateTime r)
    (writes : ∀ r, ∀ x ∈ log ++ [e], x.2.1.Writes r →
      x.1 + (cfg.tCL + cfg.tBL) * cfg.processInterval ≤ mc'.lastWriteTime r)
    (read : ∀ last, lastRead (log ++ [e]) = some last → mc'.lastReadTime = last) :
    Timed cfg mc' (log ++ [e]) where
  banks r b := by
    rw [banks]
    split
    · rename_i same
      rw [same.1, same.2]
      exact hbank
    · rename_i other
      refine (h.banks r b).other fun there => other ?_
      obtain ⟨t, command, lqe⟩ := e
      cases command <;> exact ⟨there.1.symm.trans goes.1, there.2.symm.trans goes.2⟩
  activates := activates
  writes := writes
  read := read
  own x hx := by
    rcases mem_snoc hx with hx | rfl
    · exact h.own x hx
    · exact own
  lawful := lawful_snoc h.lawful lawful

theorem since_of_le {log : List (Nat × McCommand × Lqe C)} {kind : McCommand → Prop} {u n : Nat}
    (h : ∀ e ∈ log, kind e.2.1 → e.1 ≤ u) (le : u + n * cfg.processInterval ≤ t) :
    cfg.Since log t n kind := fun e he hk => (Nat.add_le_add_right (h e he hk) _).trans le

theorem timed_activate (fits : cfg.Fits) {mc : MemoryController C}
    {log : List (Nat × McCommand × Lqe C)} (h : Timed cfg mc log) (past : ∀ e ∈ log, e.1 ≤ t)
    (can : CanActivate cfg t mc lqe) : Timed cfg (activateRow cfg t mc lqe).1
      (log ++ [(t, .activate (cfg.getRankNum lqe.address) (cfg.getBankNum lqe.address)
        (cfg.getPageNum lqe.address), lqe)]) := by
  have hbank := h.banks (cfg.getRankNum lqe.address) (cfg.getBankNum lqe.address)
  have tRR := can.tRR
  rw [McConfig.ticks_eq fits.tRR] at tRR
  have rowCycle : cfg.Since log t (cfg.tRAS + cfg.tRP)
      (McCommand.ActivatesBank (cfg.getRankNum lqe.address) (cfg.getBankNum lqe.address)) := by
    cases status : (mc.bank cfg lqe).actionType with
    | precharge => exact since_of_le hbank.last ((hbank.closed status).trans can.past)
    | idle => exact fun e he hk => absurd hk (hbank.idle status e he)
    | activate => exact absurd (.inl status) can.shut
    | read => exact absurd (.inr (.inl status)) can.shut
    | write => exact absurd (.inr (.inr status)) can.shut
  refine h.issue ⟨since_of_le (h.activates _) tRR, rowCycle⟩ ⟨rfl, rfl, rfl⟩ ⟨rfl, rfl⟩
    (.activate past _) (fun r b => setBank_bankStatus _ _ _ _) (fun r x hx hr => ?_)
    (fun r x hx hw => ?_) (fun last hl => h.read last ?_)
  · show x.1 ≤ Function.update mc.lastActivateTime (cfg.getRankNum lqe.address) t r
    rw [Function.update_apply]
    split
    · rcases mem_snoc hx with hx | rfl
      · exact past x hx
      · exact le_rfl
    · rename_i other
      rcases mem_snoc hx with hx | rfl
      · exact h.activates r x hx hr
      · exact absurd hr.symm other
  · rcases mem_snoc hx with hx | rfl
    · exact h.writes r x hx hw
    · exact hw.elim
  · rw [lastRead_append] at hl
    exact hl

theorem timed_precharge (fits : cfg.Fits) {mc : MemoryController C}
    {log : List (Nat × McCommand × Lqe C)} (h : Timed cfg mc log) (past : ∀ e ∈ log, e.1 ≤ t) :
    Timed cfg (prechargeRow cfg t mc lqe).1
      (log ++ [(t, .precharge (cfg.getRankNum lqe.address) (cfg.getBankNum lqe.address),
        lqe)]) := by
  have hbank := h.banks (cfg.getRankNum lqe.address) (cfg.getBankNum lqe.address)
  refine h.issue trivial ⟨rfl, rfl⟩ ⟨rfl, rfl⟩ (hbank.shut fits past rfl id)
    (fun r b => setBank_bankStatus _ _ _ _) (fun r x hx hr => ?_) (fun r x hx hw => ?_)
    (fun last hl => h.read last ?_)
  · rcases mem_snoc hx with hx | rfl
    · exact h.activates r x hx hr
    · exact hr.elim
  · rcases mem_snoc hx with hx | rfl
    · exact h.writes r x hx hw
    · exact hw.elim
  · rw [lastRead_append] at hl
    exact hl

theorem bankTimed_after (fits : cfg.Fits) {mc : MemoryController C} {i page : Nat} {isWrite : Bool}
    {log : List (Nat × McCommand × Lqe C)} {action : McBankAction}
    (h : BankTimed cfg log rank bank (mc.bank cfg lqe)) (past : ∀ e ∈ log, e.1 ≤ t)
    (opened : MemoryController.IsOpen (mc.bank cfg lqe))
    (tRCD : (mc.bank cfg lqe).lastActivateTime + cfg.tRCD * cfg.processInterval ≤ t)
    (column : action = .read ∨ action = .write) :
    BankTimed cfg (log ++ [(t, .column rank bank page isWrite
        ((bankAfter cfg t mc lqe i action).actionType = .precharge), lqe)]) rank bank
      (bankAfter cfg t mc lqe i action) := by
  have open' : decide (action = .precharge) = false := by rcases column with rfl | rfl <;> rfl
  unfold bankAfter
  dsimp only
  split
  · rw [open']
    exact h.stay past opened le_rfl tRCD column
  · split
    · rw [open']
      refine h.stay past opened ?_ tRCD column
      rw [closedAt_eq fits, McConfig.ticks_eq fits.tRP]
      omega
    · exact h.shut fits past rfl id

theorem bursts_timed {mc mc' : MemoryController C} {action : McBankAction} {calls : List (Call C)}
    {deleted : List (Lqe C)} (h : Bursts cfg t mc lqe action mc' calls deleted) :
    (action = .read ∧ isRead lqe.type = true ∧
        mc' = readBurst cfg t mc (cfg.getRankNum lqe.address)) ∨
      (action = .write ∧ isWrite lqe.type = true ∧
        mc' = writeBurst cfg t mc (cfg.getRankNum lqe.address)) := by
  cases h with
  | read hr => exact .inl ⟨rfl, hr, rfl⟩
  | readWrite hw => exact .inr ⟨rfl, by rw [hw]; rfl, rfl⟩
  | evict he =>
    refine .inr ⟨rfl, ?_, rfl⟩
    revert he
    cases lqe.type <;> simp [isEvict, isWrite]

theorem tRCD_of_open (fits : cfg.Fits) {mc : MemoryController C}
    {log : List (Nat × McCommand × Lqe C)} (h : BankTimed cfg log rank bank (mc.bank cfg lqe))
    (can : CanAccess cfg t mc lqe) :
    (mc.bank cfg lqe).lastActivateTime + cfg.tRCD * cfg.processInterval ≤ t := by
  rcases can.opened with activate | column
  · have tRCD := can.tRCD activate
    rw [McConfig.ticks_eq fits.tRCD] at tRCD
    exact (Nat.add_le_add_right (h.activated activate) _).trans tRCD
  · exact (h.accessed column).trans can.past

theorem readTimed_of_meets (fits : cfg.Fits) {mc : MemoryController C}
    {log : List (Nat × McCommand × Lqe C)} (h : Timed cfg mc log)
    {dp rdDp : List (Nat × McBankAction)} (met : readMeets cfg t mc rank dp rdDp = true) :
    ReadTimed cfg log t rank := by
  unfold readMeets at met
  rw [decide_eq_true_iff, McConfig.ticks_eq fits.tWTR, McConfig.ticks_eq fits.tRRBUB] at met
  obtain ⟨-, -, tWTR, tRRBUB⟩ := met
  refine ⟨fun pos e he hw => ?_, fun r t' hl ne => ?_⟩
  · have burst := h.writes rank e he hw
    have wait := not_lt.mp fun lt => tWTR ⟨pos, lt⟩
    rw [Nat.add_mul]
    omega
  · have last := h.read _ hl
    rw [last] at tRRBUB
    have wait := not_lt.mp fun lt => tRRBUB ⟨ne, lt⟩
    omega

theorem timed_access (fits : cfg.Fits) {mc mc' : MemoryController C}
    {effects : McEffects C} {i : Nat} {action : McBankAction} {log : List (Nat × McCommand × Lqe C)}
    (h : Timed cfg mc log) (past : ∀ e ∈ log, e.1 ≤ t) (can : CanAccess cfg t mc lqe)
    (accesses : Accesses cfg t mc lqe i action mc' effects) :
    Timed cfg mc' (log ++ (effects.command.map fun c => (t, c)).toList) := by
  obtain ⟨mc₁, bursts, eq⟩ := accesses.bursts
  have hbank : BankTimed cfg log _ _ (mc.bank cfg lqe) :=
    h.banks (cfg.getRankNum lqe.address) (cfg.getBankNum lqe.address)
  have tRCD := tRCD_of_open fits hbank can
  have tBBL := can.tBBL
  rw [McConfig.ticks_eq fits.tBBL] at tBBL
  have opened := hbank.opened can.opened
  rw [can.hit] at opened
  have kinds := bursts_timed bursts
  have column : action = .read ∨ action = .write := kinds.imp And.left And.left
  have same : mc₁.bankStatus = mc.bankStatus ∧ mc₁.lastActivateTime = mc.lastActivateTime := by
    rcases kinds with ⟨-, -, rfl⟩ | ⟨-, -, rfl⟩ <;> exact ⟨rfl, rfl⟩
  rw [accesses.command]
  refine h.issue ?_ ⟨rfl, rfl, rfl⟩ ⟨rfl, rfl⟩
    (bankTimed_after fits hbank past can.opened tRCD column)
    (fun r b => ?_) (fun r x hx hr => ?_) (fun r x hx hw => ?_) (fun last hl => ?_)
  · refine ⟨⟨_, opened, tRCD⟩, since_of_le hbank.columns tBBL, fun hr => ?_⟩
    rcases kinds with ⟨rfl, read, -⟩ | ⟨rfl, -, -⟩
    · exact readTimed_of_meets fits h (can.read read)
    · simp at hr
  · rw [eq]
    exact (setBank_bankStatus _ _ _ _).trans (by rw [same.1])
  · rcases mem_snoc hx with hx | rfl
    · rw [eq]
      show x.1 ≤ mc₁.lastActivateTime r
      rw [same.2]
      exact h.activates r x hx hr
    · exact hr.elim
  · rw [eq]
    show _ ≤ mc₁.lastWriteTime r
    rcases kinds with ⟨rfl, -, rfl⟩ | ⟨rfl, -, rfl⟩
    · rcases mem_snoc hx with hx | rfl
      · exact h.writes r x hx hw
      · simp [McCommand.Writes] at hw
    · unfold writeBurst
      dsimp only
      rw [Function.update_apply, McConfig.ticks_eq fits.burst]
      split
      · refine Nat.add_le_add_right ?_ _
        rcases mem_snoc hx with hx | rfl
        · exact past x hx
        · exact le_rfl
      · rename_i other
        rcases mem_snoc hx with hx | rfl
        · exact h.writes r x hx hw
        · exact absurd hw.1.symm other
  · rw [lastRead_append] at hl
    rw [eq]
    show mc₁.lastReadTime = last
    rcases kinds with ⟨rfl, -, rfl⟩ | ⟨rfl, -, rfl⟩
    · exact Option.some.inj hl
    · exact h.read last hl

theorem timed_does (fits : cfg.Fits) {mc mc' : MemoryController C} {effects : McEffects C}
    {log : List (Nat × McCommand × Lqe C)} (h : Timed cfg mc log) (past : ∀ e ∈ log, e.1 ≤ t)
    (does : Does cfg t mc mc' effects) :
    Timed cfg mc' (log ++ (effects.command.map fun c => (t, c)).toList) := by
  cases does with
  | idle => exact (List.append_nil log).symm ▸ h
  | activate hi can => exact timed_activate fits h past can
  | precharge hi can => exact timed_precharge fits h past
  | access hi can accesses => exact timed_access fits h past can accesses

theorem Timed.congr {mc mc' : MemoryController C} {log : List (Nat × McCommand × Lqe C)}
    (h : Timed cfg mc log) (banks : mc'.bankStatus = mc.bankStatus)
    (activates : mc'.lastActivateTime = mc.lastActivateTime)
    (writes : mc'.lastWriteTime = mc.lastWriteTime) (read : mc'.lastReadTime = mc.lastReadTime) :
    Timed cfg mc' log where
  banks := banks ▸ h.banks
  activates := activates ▸ h.activates
  writes := writes ▸ h.writes
  read := read ▸ h.read
  own := h.own
  lawful := h.lawful

theorem Timed.prepared {mc mc' : MemoryController C} {log : List (Nat × McCommand × Lqe C)}
    (h : Timed cfg mc log) (prepared : Prepared cfg t mc mc') : Timed cfg mc' log :=
  h.congr prepared.bankStatus prepared.lastActivateTime prepared.lastWriteTime prepared.lastReadTime

namespace McSystem

variable {s s' : McSystem C}

theorem step_process (hs : step cfg s (.process t) = .ok s') : ∃ mc effects,
    Prepared cfg t s.mc mc ∧ Does cfg t mc s'.mc effects ∧
      s'.log = s.log ++ (effects.command.map fun c => (t, c)).toList ∧ s'.agenda.now = some t := by
  unfold step at hs
  cases hp : s.mc.processEvent cfg t with
  | error e => simp [hp, bind, Except.bind] at hs
  | ok r =>
    obtain ⟨mc, effects⟩ := r
    simp only [hp, bind, Except.bind, pure, Except.pure, Except.ok.injEq] at hs
    obtain ⟨⟨mc₁, done, prepared, does, -, -, command⟩, wakeups⟩ := processEvent_processed.of_ok hp
    subst hs
    refine ⟨mc₁, done, prepared, does, ?_, Agenda.foldl_add_now _⟩
    rw [← command]
    rfl

theorem addReqEvent_keeps (cfg : McConfig C) (mc : MemoryController C) (time : Nat) (lqe : Lqe C) :
    (mc.addReqEvent cfg time lqe).1.bankStatus = mc.bankStatus ∧
      (mc.addReqEvent cfg time lqe).1.lastActivateTime = mc.lastActivateTime ∧
      (mc.addReqEvent cfg time lqe).1.lastWriteTime = mc.lastWriteTime ∧
      (mc.addReqEvent cfg time lqe).1.lastReadTime = mc.lastReadTime ∧
      (mc.addReqEvent cfg time lqe).2.command = none := by
  unfold addReqEvent
  dsimp only
  split
  · split <;> exact ⟨rfl, rfl, rfl, rfl, rfl⟩
  · split
    · split <;> exact ⟨rfl, rfl, rfl, rfl, rfl⟩
    · exact ⟨rfl, rfl, rfl, rfl, rfl⟩

theorem step_add_eq {time : Nat} (hs : step cfg s (.add time lqe) = .ok s') :
    s' = { s with added := s.added ++ [lqe] }.record time (s.mc.addReqEvent cfg time lqe).1
      (s.mc.addReqEvent cfg time lqe).2 := (Except.ok.inj hs).symm

theorem step_add_log {time : Nat} (hs : step cfg s (.add time lqe) = .ok s') :
    s'.log = s.log ∧ s'.agenda.now = s.agenda.now := by
  rw [step_add_eq hs]
  refine ⟨?_, Agenda.foldl_add_now _⟩
  unfold record
  rw [(addReqEvent_keeps cfg s.mc time lqe).2.2.2.2]
  exact List.append_nil _

theorem timed_step (fits : cfg.Fits) (h : Timed cfg s.mc s.log)
    (past : ∀ e ∈ s.log, ∃ n ∈ s.agenda.now, e.1 ≤ n) (e : McEvent C) (timely : Timely s.agenda e)
    (hs : step cfg s e = .ok s') :
    Timed cfg s'.mc s'.log ∧ ∀ e ∈ s'.log, ∃ n ∈ s'.agenda.now, e.1 ≤ n := by
  cases e with
  | add time lqe =>
    obtain ⟨banks, activates, writes, read, -⟩ := addReqEvent_keeps cfg s.mc time lqe
    obtain ⟨log, now⟩ := step_add_log hs
    rw [log, now, step_add_eq hs]
    exact ⟨h.congr banks activates writes read, past⟩
  | advance t =>
    cases hs
    refine ⟨h, fun e he => ⟨t, rfl, ?_⟩⟩
    obtain ⟨n, hn, le⟩ := past e he
    exact le.trans (timely.1 n hn)
  | process t =>
    obtain ⟨mc, effects, prepared, does, log, now⟩ := step_process hs
    have old : ∀ e ∈ s.log, e.1 ≤ t := fun e he => by
      obtain ⟨n, hn, le⟩ := past e he
      exact le.trans (timely.2.1 n hn)
    rw [log, now]
    refine ⟨timed_does fits (h.prepared prepared) old does, fun e he => ⟨t, rfl, ?_⟩⟩
    rcases List.mem_append.mp he with he | he
    · exact old e he
    · obtain ⟨c, -, rfl⟩ := Option.map_eq_some_iff.mp (Option.mem_toList.mp he)
      exact le_rfl

theorem timed_run (fits : cfg.Fits) (run : Run cfg s) :
    Timed cfg s.mc s.log ∧ ∀ e ∈ s.log, ∃ n ∈ s.agenda.now, e.1 ≤ n := by
  induction run with
  | init =>
    refine ⟨⟨fun _ _ => bankTimed_init, ?_, ?_, ?_, ?_, fun before e after split => ?_⟩, ?_⟩
    · exact fun _ _ h => nomatch h
    · exact fun _ _ h => nomatch h
    · exact fun _ h => nomatch h
    · exact fun _ h => nomatch h
    · exact absurd split (by simp [init])
    · exact fun _ h => nomatch h
  | step e run timely hs ih => exact timed_step fits ih.1 ih.2 e timely hs

/-- DRAM command timing: every command of a run is lawful after the commands before it, and goes to
the row of its request. -/
theorem commands_lawful (fits : cfg.Fits) (run : Run cfg s)
    {before after : List (Nat × McCommand × Lqe C)} {e : Nat × McCommand × Lqe C}
    (split : s.log = before ++ e :: after) : e.2.1.IsFor cfg e.2.2 ∧ Lawful cfg before e := by
  obtain ⟨timed, -⟩ := timed_run fits run
  refine ⟨timed.own e ?_, timed.lawful before e after split⟩
  rw [split]
  exact List.mem_append_right _ List.mem_cons_self

/-- Two writes and two reads, of which the last is to the other bank -/
def writesAndReads : List (McEvent Nat) :=
  [.add 0 { path := [], type := .evict, address := 0 },
    .add 0 { path := [], type := .read, address := 8 },
    .add 0 { path := [], type := .read, address := 72 },
    .add 0 { path := [], type := .evict, address := 24 },
    .process 0, .process 10, .process 20, .process 30, .process 40, .process 50, .process 60,
    .process 70, .process 80, .process 90, .process 100, .process 110, .process 120, .process 130]

theorem commands_lawful_last_read : ∃ (s : McSystem Nat) (before : List (Nat × McCommand × Lqe Nat))
    (e : Nat × McCommand × Lqe Nat), Run pairOfBanks s ∧ s.log = before ++ [e] ∧ before.length = 5 ∧
      e.2.1 = .column 0 1 0 false false ∧ e.2.1.IsFor pairOfBanks e.2.2 ∧
        Lawful pairOfBanks before e := by
  have ends : Meets (fun _ => False)
      (fun s => s.log.map (·.2.1) = [.activate 0 0 0, .activate 0 1 0, .column 0 0 0 true false,
        .column 0 0 0 true false, .column 0 0 0 false false] ++ [.column 0 1 0 false false])
      ((init pairOfBanks).follow pairOfBanks writesAndReads) := by decide +kernel
  obtain ⟨s, hs, commands⟩ := ends.result
  have run := Run.init.follow hs
  obtain ⟨before, rest, split, five, last⟩ := List.map_eq_append_iff.mp commands
  obtain ⟨e, rfl, read⟩ := List.map_eq_singleton_iff.mp last
  have length := congrArg List.length five
  rw [List.length_map] at length
  have fits : pairOfBanks.Fits := by constructor <;> decide
  exact ⟨s, before, e, run, split, length, read, commands_lawful fits run split⟩

/-- Two of a unit are a product of all 32 bits. -/
def wideUnits : McConfig Nat :=
  { pairOfBanks with
    processInterval := 2 ^ 31
    processInterval_pos := by decide
    tRCD := 1
    tRR := 1
    tRP := 1
    tCL := 1
    tBL := 1
    tBBL := 1
    tRAS := 1
    tWRBUB := 1
    tRWBUB := 1
    tRRBUB := 1
    tWTR := 1 }

/-- The end of a write burst is taken for its beginning. -/
theorem read_too_early :
    (∀ n ∈ [wideUnits.tRCD, wideUnits.tRR, wideUnits.tRP, wideUnits.tCL, wideUnits.tBL, wideUnits.tBBL,
      wideUnits.tRAS, wideUnits.tWRBUB, wideUnits.tRWBUB, wideUnits.tRRBUB, wideUnits.tWTR],
      n * wideUnits.processInterval < 2 ^ 32) ∧
    ∃ (s : McSystem Nat) (before : List (Nat × McCommand × Lqe Nat)) (e : Nat × McCommand × Lqe Nat),
      Run wideUnits s ∧ s.log = before ++ [e] ∧ ¬ Lawful wideUnits before e := by
  refine ⟨by decide, ?_⟩
  have ends : Meets (fun _ => False)
      (fun s => s.log.map (fun e => (e.1, e.2.1)) =
        [(2 ^ 31, .activate 0 0 0), (2 ^ 32, .column 0 0 0 true false)] ++
          [(2 ^ 33, .column 0 0 0 false false)])
      ((init wideUnits).follow wideUnits
        [.add 0 { path := [], type := .evict, address := 0 },
          .add 0 { path := [], type := .read, address := 8 },
          .process 0, .process (2 ^ 31), .process (2 ^ 32), .process (3 * 2 ^ 31),
          .process (2 ^ 33)]) := by
    decide +kernel
  obtain ⟨s, hs, commands⟩ := ends.result
  obtain ⟨before, rest, split, two, last⟩ := List.map_eq_append_iff.mp commands
  obtain ⟨⟨t, command, lqe⟩, rfl, read⟩ := List.map_eq_singleton_iff.mp last
  cases read
  refine ⟨s, before, _, Run.init.follow hs, split, fun lawful => ?_⟩
  have written : (2 ^ 32, McCommand.column 0 0 0 true false) ∈ before.map fun e =>
    (e.1, e.2.1) := by
    rw [two]
    exact List.mem_cons_of_mem _ List.mem_cons_self
  obtain ⟨write, mem, same⟩ := List.mem_map.mp written
  obtain ⟨time, kind⟩ := Prod.mk.injEq _ _ _ _ ▸ same
  have burst := (lawful.read rfl).tWTR Nat.one_pos write mem (by rw [kind]; exact ⟨rfl, rfl⟩)
  rw [time] at burst
  exact absurd burst (by decide)

end McSystem
end McSim
