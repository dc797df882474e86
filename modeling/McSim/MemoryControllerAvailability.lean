import McSim.MemoryControllerTiming

/-! When a bank is available again.
The action time of a bank that closes its row has `tRP` in it, and the activate check adds it again.
A row that stays open under a policy that closes rows keeps what `tRAS` has put into it. -/

namespace McSim

open MemoryController Contract

variable {C : Type} {cfg : McConfig C} {t rank bank : Nat}

namespace MemoryController

structure PassesActivate (cfg : McConfig C) (u : Nat) (b : BankStatus) : Prop where
  shut : ¬ IsOpen b
  past : b.actionTime ≤ u
  precharged : b.actionType = .precharge → b.actionTime + cfg.ticks cfg.tRP ≤ u

structure PassesHit (cfg : McConfig C) (u : Nat) (b : BankStatus) : Prop where
  opened : IsOpen b
  past : b.actionTime ≤ u
  tRCD : b.actionType = .activate → b.actionTime + cfg.ticks cfg.tRCD ≤ u
  tBBL : b.actionTime + cfg.ticks cfg.tBBL ≤ u

variable {s : MemoryController C} {lqe : Lqe C} {b : BankStatus} {u : Nat}

theorem canActivate_iff : CanActivate cfg t s lqe ↔ PassesActivate cfg t (s.bank cfg lqe) ∧
    s.lastActivateTime (cfg.getRankNum lqe.address) + cfg.ticks cfg.tRR ≤ t :=
  ⟨fun can => ⟨⟨can.shut, can.past, can.precharged⟩, can.tRR⟩,
    fun h => ⟨h.1.shut, h.1.precharged, h.1.past, h.2⟩⟩

theorem CanAccess.passes (can : CanAccess cfg t s lqe) : PassesHit cfg t (s.bank cfg lqe) :=
  ⟨can.opened, can.past, can.tRCD, can.tBBL⟩

theorem passesActivate_iff (precharge : b.actionType = .precharge) :
    PassesActivate cfg u b ↔ b.actionTime + cfg.ticks cfg.tRP ≤ u := by
  refine ⟨fun passes => passes.precharged precharge, fun later => ⟨?_, ?_, fun _ => later⟩⟩
  · simp [IsOpen, precharge]
  · exact (Nat.le_add_right _ _).trans later

theorem passesHit_iff (column : b.actionType = .read ∨ b.actionType = .write) :
    PassesHit cfg u b ↔ b.actionTime + cfg.ticks cfg.tBBL ≤ u := by
  refine ⟨fun passes => passes.tBBL, fun later => ⟨.inr column, ?_, fun activate => ?_, later⟩⟩
  · exact (Nat.le_add_right _ _).trans later
  · rw [activate] at column
    rcases column with h | h <;> cases h

end MemoryController

namespace McCommand

def target : McCommand → Nat × Nat
  | activate rank bank _ | precharge rank bank | column rank bank _ _ _ => (rank, bank)

/-- The row is closed, by a precharge or with a column command. -/
def Closes : McCommand → Prop
  | precharge _ _ => True
  | column _ _ _ _ autoPrecharge => autoPrecharge = true
  | activate _ _ _ => False

def Leaves : McCommand → Prop
  | column _ _ _ _ autoPrecharge => autoPrecharge = false
  | _ => False

def opens (rank bank : Nat) : Nat × McCommand × Lqe C → Option Nat
  | (t, activate r b _, _) => if (r, b) = (rank, bank) then some t else none
  | _ => none

def sentTo (rank bank : Nat) (e : Nat × McCommand × Lqe C) : Option (Nat × McCommand) :=
  if e.2.1.target = (rank, bank) then some (e.1, e.2.1) else none

end McCommand

def lastCommand (rank bank : Nat) (log : List (Nat × McCommand × Lqe C)) :
    Option (Nat × McCommand) :=
  log.reverse.findSome? (McCommand.sentTo rank bank)

def lastActivate (rank bank : Nat) (log : List (Nat × McCommand × Lqe C)) : Option Nat :=
  log.reverse.findSome? (McCommand.opens rank bank)

variable {e : Nat × McCommand × Lqe C}

theorem lastCommand_own (log : List (Nat × McCommand × Lqe C)) (own : e.2.1.target = (rank, bank)) :
    lastCommand rank bank (log ++ [e]) = some (e.1, e.2.1) := by
  rw [lastCommand, List.reverse_append, List.reverse_singleton, List.singleton_append,
    List.findSome?_cons, McCommand.sentTo, if_pos own]

theorem lastCommand_other (log : List (Nat × McCommand × Lqe C))
    (other : e.2.1.target ≠ (rank, bank)) :
    lastCommand rank bank (log ++ [e]) = lastCommand rank bank log := by
  rw [lastCommand, List.reverse_append, List.reverse_singleton, List.singleton_append,
    List.findSome?_cons, McCommand.sentTo, if_neg other]
  rfl

variable {log : List (Nat × McCommand × Lqe C)}

theorem lastActivate_own {page : Nat} {lqe : Lqe C} :
    lastActivate rank bank (log ++ [(t, .activate rank bank page, lqe)]) = some t := by
  rw [lastActivate, List.reverse_append, List.reverse_singleton, List.singleton_append,
    List.findSome?_cons, McCommand.opens, if_pos rfl]

theorem lastActivate_other (other : McCommand.opens rank bank e = none) :
    lastActivate rank bank (log ++ [e]) = lastActivate rank bank log := by
  rw [lastActivate, List.reverse_append, List.reverse_singleton, List.singleton_append,
    List.findSome?_cons, other]
  rfl

theorem McCommand.opens_other (other : e.2.1.target ≠ (rank, bank)) :
    McCommand.opens rank bank e = none := by
  obtain ⟨t, command, lqe⟩ := e
  cases command with
  | activate r b page => exact if_neg other
  | precharge r b => rfl
  | column r b page isWrite autoPrecharge => rfl

/-- What the status of a bank says about the last command to it -/
structure Shows (cfg : McConfig C) (log : List (Nat × McCommand × Lqe C)) (rank bank : Nat)
    (b : BankStatus) : Prop where
  idle : b.actionType = .idle → lastCommand rank bank log = none
  activated : b.actionType ≠ .idle → lastActivate rank bank log = some b.lastActivateTime
  closed : ∀ t command, lastCommand rank bank log = some (t, command) → command.Closes →
    b.actionType = .precharge ∧ b.actionTime = closedAt cfg t b
  left : ∀ t command, lastCommand rank bank log = some (t, command) → command.Leaves →
    (b.actionType = .read ∨ b.actionType = .write) ∧ b.actionTime =
      if cfg.policy = .open then t else max t (cfg.ticks cfg.tRAS + b.lastActivateTime)

variable {b : BankStatus}

theorem shows_init : Shows cfg ([] : List (Nat × McCommand × Lqe C)) rank bank {} where
  idle _ := rfl
  activated h := absurd rfl h
  closed _ _ h := nomatch h
  left _ _ h := nomatch h

theorem Shows.other (h : Shows cfg log rank bank b) (other : e.2.1.target ≠ (rank, bank)) :
    Shows cfg (log ++ [e]) rank bank b := by
  have last := lastCommand_other log other
  refine ⟨fun idle => last.trans (h.idle idle), fun some => ?_, fun t command hc => ?_,
    fun t command hc => ?_⟩
  · rw [lastActivate_other (McCommand.opens_other other)]
    exact h.activated some
  · exact h.closed t command (last.symm.trans hc)
  · exact h.left t command (last.symm.trans hc)

theorem Shows.activate {page : Nat} {lqe : Lqe C} :
    Shows cfg (log ++ [(t, .activate rank bank page, lqe)]) rank bank
      { actionTime := t, pageNum := page, actionType := .activate, lastActivateTime := t } := by
  have last := lastCommand_own log (e := (t, .activate rank bank page, lqe)) rfl
  refine ⟨fun idle => (by cases idle), fun _ => lastActivate_own, fun u command hc closes => ?_,
    fun u command hc leaves => ?_⟩
  · cases last.symm.trans hc
    exact closes.elim
  · cases last.symm.trans hc
    exact leaves.elim

theorem Shows.close (h : Shows cfg log rank bank b) (opened : MemoryController.IsOpen b)
    (own : e.2.1.target = (rank, bank)) (row : McCommand.opens rank bank e = none)
    (closes : e.2.1.Closes) : Shows cfg (log ++ [e]) rank bank
      { b with actionTime := closedAt cfg e.1 b, actionType := .precharge } := by
  have last := lastCommand_own log own
  have some : b.actionType ≠ .idle := by
    rcases opened with h | h | h <;> simp [h]
  refine ⟨fun idle => (by cases idle), fun _ => ?_, fun u command hc _ => ?_,
    fun u command hc leaves => ?_⟩
  · rw [lastActivate_other row]
    exact h.activated some
  · cases last.symm.trans hc
    exact ⟨rfl, rfl⟩
  · cases last.symm.trans hc
    obtain ⟨t, command, lqe⟩ := e
    cases command with
    | activate r b page => exact closes.elim
    | precharge r b => exact leaves.elim
    | column r b page isWrite autoPrecharge => exact nomatch closes.symm.trans leaves

theorem Shows.leave (h : Shows cfg log rank bank b) (opened : MemoryController.IsOpen b)
    {page : Nat} {isWrite : Bool} {action : McBankAction} {lqe : Lqe C} {u : Nat}
    (column : action = .read ∨ action = .write)
    (time : u = if cfg.policy = .open then t else max t (cfg.ticks cfg.tRAS + b.lastActivateTime)) :
    Shows cfg (log ++ [(t, .column rank bank page isWrite false, lqe)]) rank bank
      { b with actionTime := u, actionType := action } := by
  have last := lastCommand_own log (e := (t, .column rank bank page isWrite false, lqe)) rfl
  have some : b.actionType ≠ .idle := by
    rcases opened with h | h | h <;> simp [h]
  refine ⟨fun idle => ?_, fun _ => ?_, fun u command hc closes => ?_, fun u command hc leaves => ?_⟩
  · have idle : action = .idle := idle
    rcases column with rfl | rfl <;> cases idle
  · rw [lastActivate_other rfl]
    exact h.activated some
  · cases last.symm.trans hc
    cases closes
  · cases last.symm.trans hc
    exact ⟨column, time⟩

theorem shows_issue {mc mc' : MemoryController C} {status : BankStatus} {command : McCommand}
    {lqe : Lqe C} (h : ∀ rank bank, Shows cfg log rank bank (mc.bankStatus rank bank))
    (own : command.target = (rank, bank))
    (shows : Shows cfg (log ++ [(t, command, lqe)]) rank bank status)
    (banks : ∀ r b, mc'.bankStatus r b = if r = rank ∧ b = bank then status else mc.bankStatus r b)
    (r b : Nat) : Shows cfg (log ++ [(t, command, lqe)]) r b (mc'.bankStatus r b) := by
  rw [banks]
  by_cases same : r = rank ∧ b = bank
  · rw [if_pos same]
    obtain ⟨rfl, rfl⟩ := same
    exact shows
  · rw [if_neg same]
    refine (h r b).other fun target => same ?_
    cases own.symm.trans target
    exact ⟨rfl, rfl⟩

theorem Shows.after {mc : MemoryController C} {lqe : Lqe C} {i page : Nat} {isWrite : Bool}
    {action : McBankAction} (h : Shows cfg log rank bank (mc.bank cfg lqe))
    (opened : MemoryController.IsOpen (mc.bank cfg lqe))
    (column : action = .read ∨ action = .write) :
    Shows cfg (log ++ [(t, .column rank bank page isWrite
        ((bankAfter cfg t mc lqe i action).actionType = .precharge), lqe)]) rank bank
      (bankAfter cfg t mc lqe i action) := by
  have stays : decide (action = .precharge) = false := by rcases column with rfl | rfl <;> rfl
  unfold bankAfter
  dsimp only
  split
  · rename_i policy
    rw [stays]
    exact h.leave opened column (if_pos policy).symm
  · rename_i policy
    split
    · rw [stays]
      refine h.leave opened column ?_
      rw [if_neg policy, closedAt]
      omega
    · exact h.close opened rfl rfl rfl

theorem shows_does {mc mc' : MemoryController C} {effects : McEffects C}
    (h : ∀ rank bank, Shows cfg log rank bank (mc.bankStatus rank bank))
    (does : Does cfg t mc mc' effects) (rank bank : Nat) :
    Shows cfg (log ++ (effects.command.map fun c => (t, c)).toList) rank bank
      (mc'.bankStatus rank bank) := by
  cases does with
  | idle => exact (List.append_nil log).symm ▸ h rank bank
  | @activate lqe i hi can =>
    exact shows_issue h rfl .activate (fun r b => setBank_bankStatus _ _ _ _) rank bank
  | @precharge lqe i hi can =>
    have own := (h (cfg.getRankNum lqe.address) (cfg.getBankNum lqe.address)).close
      (e := (t, .precharge (cfg.getRankNum lqe.address) (cfg.getBankNum lqe.address), lqe))
      can.opened rfl rfl trivial
    exact shows_issue h rfl own (fun r b => setBank_bankStatus _ _ _ _) rank bank
  | @access lqe i action mc' effects hi can accesses =>
    obtain ⟨mc₁, bursts, eq⟩ := accesses.bursts
    have kinds := bursts_timed bursts
    have same : mc₁.bankStatus = mc.bankStatus := by
      rcases kinds with ⟨-, -, rfl⟩ | ⟨-, -, rfl⟩ <;> rfl
    have hbank : Shows cfg log _ _ (mc.bank cfg lqe) :=
      h (cfg.getRankNum lqe.address) (cfg.getBankNum lqe.address)
    rw [accesses.command]
    refine shows_issue h rfl (hbank.after can.opened (kinds.imp And.left And.left)) (fun r b => ?_)
      rank bank
    rw [eq]
    exact (setBank_bankStatus _ _ _ _).trans (by rw [same])

/-- A bank is available when it should be: a closed row after `tRP`, an open one after `tBBL`. The
ticks are the products that the code computes, on 32 bits. -/
structure Available (cfg : McConfig C) (log : List (Nat × McCommand × Lqe C)) (rank bank : Nat)
    (b : BankStatus) : Prop where
  closed : ∀ t command ta, lastCommand rank bank log = some (t, command) → command.Closes →
    lastActivate rank bank log = some ta →
      ∀ u, PassesActivate cfg u b ↔ max t (ta + cfg.ticks cfg.tRAS) + cfg.ticks cfg.tRP ≤ u
  left : ∀ t command ta, lastCommand rank bank log = some (t, command) → command.Leaves →
    lastActivate rank bank log = some ta → ∀ u, PassesHit cfg u b ↔ t + cfg.ticks cfg.tBBL ≤ u

/-- No time is counted twice: a row that closes takes none, and a row that was left open under a
policy that closes rows had been open for `tRAS`. -/
structure CountedOnce (cfg : McConfig C) (log : List (Nat × McCommand × Lqe C)) (rank bank : Nat) :
    Prop where
  closed : ∀ t command, lastCommand rank bank log = some (t, command) → command.Closes →
    cfg.ticks cfg.tRP = 0
  left : ∀ t command ta, lastCommand rank bank log = some (t, command) → command.Leaves →
    lastActivate rank bank log = some ta → cfg.policy = .open ∨ ta + cfg.ticks cfg.tRAS ≤ t

theorem Shows.opened (h : Shows cfg log rank bank b) {command : McCommand}
    (hc : lastCommand rank bank log = some (t, command)) :
    lastActivate rank bank log = some b.lastActivateTime :=
  h.activated fun idle => nomatch (h.idle idle).symm.trans hc

theorem Shows.passesActivate (h : Shows cfg log rank bank b) {command : McCommand} {ta u : Nat}
    (hc : lastCommand rank bank log = some (t, command)) (closes : command.Closes)
    (ha : lastActivate rank bank log = some ta) : PassesActivate cfg u b ↔
      max t (ta + cfg.ticks cfg.tRAS) + cfg.ticks cfg.tRP + cfg.ticks cfg.tRP ≤ u := by
  obtain ⟨precharge, time⟩ := h.closed t command hc closes
  cases ha.symm.trans (h.opened hc)
  rw [passesActivate_iff precharge, time, closedAt, Nat.add_comm (cfg.ticks cfg.tRAS),
    Nat.add_comm (cfg.ticks cfg.tRP)]

theorem Shows.passesHit (h : Shows cfg log rank bank b) {command : McCommand} {ta u : Nat}
    (hc : lastCommand rank bank log = some (t, command)) (leaves : command.Leaves)
    (ha : lastActivate rank bank log = some ta) : PassesHit cfg u b ↔
      (if cfg.policy = .open then t else max t (ta + cfg.ticks cfg.tRAS)) + cfg.ticks
        cfg.tBBL ≤ u := by
  obtain ⟨column, time⟩ := h.left t command hc leaves
  cases ha.symm.trans (h.opened hc)
  rw [passesHit_iff column, time, Nat.add_comm (cfg.ticks cfg.tRAS)]

theorem Shows.available (h : Shows cfg log rank bank b) :
    Available cfg log rank bank b ↔ CountedOnce cfg log rank bank := by
  refine ⟨fun exact => ⟨fun t command hc closes => ?_, fun t command ta hc leaves ha => ?_⟩,
    fun once => ⟨fun t command ta hc closes ha u => ?_, fun t command ta hc leaves ha u => ?_⟩⟩
  · have same := eq_of_forall_ge_iff fun u => (h.passesActivate hc closes (h.opened hc)).symm.trans
      (exact.closed t command _ hc closes (h.opened hc) u)
    omega
  · have same := eq_of_forall_ge_iff fun u => (h.passesHit hc leaves ha).symm.trans
      (exact.left t command ta hc leaves ha u)
    by_cases policy : cfg.policy = .open
    · exact .inl policy
    · rw [if_neg policy] at same
      omega
  · rw [h.passesActivate hc closes ha, once.closed t command hc closes, Nat.add_zero]
  · rw [h.passesHit hc leaves ha]
    rcases once.left t command ta hc leaves ha with policy | tRAS
    · rw [if_pos policy]
    · rw [max_eq_left tRAS, ite_self]

namespace McSystem

variable {s s' : McSystem C}

theorem shows_step (h : ∀ rank bank, Shows cfg s.log rank bank (s.mc.bankStatus rank bank))
    (e : McEvent C) (hs : step cfg s e = .ok s') (rank bank : Nat) :
    Shows cfg s'.log rank bank (s'.mc.bankStatus rank bank) := by
  cases e with
  | add time lqe =>
    obtain ⟨banks, -⟩ := addReqEvent_keeps cfg s.mc time lqe
    obtain ⟨log, -⟩ := step_add_log hs
    have same : s'.mc.bankStatus = s.mc.bankStatus := by
      rw [step_add_eq hs]
      exact banks
    rw [log, same]
    exact h rank bank
  | advance t =>
    cases hs
    exact h rank bank
  | process t =>
    obtain ⟨mc, effects, prepared, does, log, -⟩ := step_process hs
    rw [log]
    exact shows_does (by rw [prepared.bankStatus]; exact h) does rank bank

theorem shows_run (run : Run cfg s) (rank bank : Nat) :
    Shows cfg s.log rank bank (s.mc.bankStatus rank bank) := by
  induction run generalizing rank bank with
  | init => exact shows_init
  | step e run timely hs ih => exact shows_step ih e hs rank bank

/-- When a bank is available exactly then when it should be. A bank with a command has been
opened. -/
theorem available_iff (run : Run cfg s) (rank bank : Nat) :
    (Available cfg s.log rank bank (s.mc.bankStatus rank bank) ↔ CountedOnce cfg s.log rank bank) ∧
      ∀ t command, lastCommand rank bank s.log = some (t, command) →
        ∃ ta, lastActivate rank bank s.log = some ta :=
  ⟨(shows_run run rank bank).available, fun _ _ hc => ⟨_, (shows_run run rank bank).opened hc⟩⟩

def rowConflict : List (McEvent Nat) :=
  [.add 0 { path := [], type := .read, address := 0 }, .process 0, .process 10, .process 20,
    .process 30, .add 40 { path := [], type := .read, address := 512 }, .process 40]

theorem available_iff_row_conflict : ∃ s, Run pairOfBanks s ∧ s.log.length = 3 ∧
    (Available pairOfBanks s.log 0 0 (s.mc.bankStatus 0 0) ↔
      CountedOnce pairOfBanks s.log 0 0) := by
  have ends : Meets (fun _ => False) (fun s => s.log.length = 3)
      ((init pairOfBanks).follow pairOfBanks rowConflict) := by decide +kernel
  obtain ⟨s, hs, three⟩ := ends.result
  have run := Run.init.follow hs
  exact ⟨s, run, three, (available_iff run 0 0).1⟩

/-- A row is told to close at 40, and the bank is not available at 70. -/
theorem precharged_late : ∃ s, Run pairOfBanks s ∧
    ¬ Available pairOfBanks s.log 0 0 (s.mc.bankStatus 0 0) := by
  have ends : Meets (fun _ => False) (fun s =>
      lastCommand 0 0 s.log = some (40, .precharge 0 0) ∧ lastActivate 0 0 s.log = some 10 ∧
        (s.mc.bankStatus 0 0).actionType = .precharge ∧ (s.mc.bankStatus 0 0).actionTime = 70)
      ((init pairOfBanks).follow pairOfBanks rowConflict) := by decide +kernel
  obtain ⟨s, hs, last, activate, precharge, time⟩ := ends.result
  refine ⟨s, Run.init.follow hs, fun available => ?_⟩
  have passes := (available.closed 40 _ 10 last trivial activate 70).mpr (by decide)
  have late := passes.precharged precharge
  rw [time] at late
  exact absurd late (by decide)

end McSystem
end McSim
