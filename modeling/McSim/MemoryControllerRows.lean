import McSim.MemoryControllerBatch

/-! Open rows, when they are not kept open.
A row is opened for a request, and stays open behind a column command only for another one. As rows
are closed by column commands, no row may stay open without a request. -/

namespace McSim

open MemoryController Contract

variable {C : Type} {cfg : McConfig C} {t rank bank : Nat}

namespace MemoryController

variable {s s' : MemoryController C} {lqe : Lqe C} {k : Nat}

structure Targets (cfg : McConfig C) (rank bank page : Nat) (lqe : Lqe C) : Prop where
  rank : rank = cfg.getRankNum lqe.address
  bank : bank = cfg.getBankNum lqe.address
  page : page = cfg.getPageNum lqe.address

def Wanted (cfg : McConfig C) (s : MemoryController C) (rank bank page : Nat) : Prop :=
  ∃ j < cfg.reqWindowSz, ∃ lqe, s.reqL[j]? = some lqe ∧ Targets cfg rank bank page lqe

/-- The open rows are wanted. -/
def Used (cfg : McConfig C) (s : MemoryController C) : Prop :=
  ∀ rank bank, IsOpen (s.bankStatus rank bank) →
    Wanted cfg s rank bank (s.bankStatus rank bank).pageNum

theorem Used.prepare (h : s.Used cfg) (t : Nat) : (prepare cfg t s).Used cfg := by
  intro rank bank opened
  obtain ⟨j, window, lqe, get, targets⟩ := h rank bank opened
  refine ⟨j, window, lqe, ?_, targets⟩
  exact (List.getElem?_append_left (List.getElem?_eq_some_iff.mp get).1).trans get

theorem Wanted.erase {page : Nat} (h : Wanted cfg s rank bank page) (get : s.reqL[k]? = some lqe)
    (other : ¬ Targets cfg rank bank page lqe) (reqL : s'.reqL = s.reqL.eraseIdx k) :
    Wanted cfg s' rank bank page := by
  obtain ⟨j, window, x, hx, targets⟩ := h
  have ne : j ≠ k := by
    rintro rfl
    rw [get] at hx
    cases hx
    exact other targets
  rcases lt_or_gt_of_ne ne with before | behind
  · refine ⟨j, window, x, ?_, targets⟩
    rw [reqL, List.getElem?_eraseIdx_of_lt before, hx]
  · refine ⟨j - 1, by omega, x, ?_, targets⟩
    rw [reqL, List.getElem?_eraseIdx_of_ge (by omega), Nat.sub_add_cancel (by omega), hx]

theorem wanted_of_wantedLater (later : wantedLater cfg s lqe k = true)
    (reqL : s'.reqL = s.reqL.eraseIdx k) : Wanted cfg s' (cfg.getRankNum lqe.address)
      (cfg.getBankNum lqe.address) (cfg.getPageNum lqe.address) := by
  obtain ⟨x, mem, targets⟩ := List.any_eq_true.mp later
  obtain ⟨j, hj⟩ := List.mem_iff_getElem?.mp mem
  rw [List.getElem?_drop, List.getElem?_take] at hj
  split at hj
  · rename_i window
    obtain ⟨rank, bank, page⟩ := of_decide_eq_true targets
    refine ⟨k + j, by omega, x, ?_, rank, bank, page⟩
    rw [reqL, List.getElem?_eraseIdx_of_ge (by omega), ← hj]
    congr 1
    omega
  · cases hj

theorem Used.commands {effects : McEffects C} (policy : cfg.policy ≠ .open) (h : s.Used cfg)
    (get : s.reqL[k]? = some lqe) (window : k < cfg.reqWindowSz)
    (commands : Commands cfg t s lqe k s' effects) : s'.Used cfg := by
  intro rank bank opened
  cases commands with
  | activate can =>
    have status : (activateRow cfg t s lqe).1.bankStatus rank bank = _ :=
      setBank_bankStatus s (cfg.getRankNum lqe.address) (cfg.getBankNum lqe.address) _
    rw [status] at opened ⊢
    by_cases own : rank = cfg.getRankNum lqe.address ∧ bank = cfg.getBankNum lqe.address
    · rw [if_pos own]
      exact ⟨k, window, lqe, get, own.1, own.2, rfl⟩
    · rw [if_neg own] at opened ⊢
      exact h rank bank opened
  | precharge can => exact absurd can.policy policy
  | @access action s' effects ready accesses batch counts =>
    have reqL := accesses.reqL
    obtain ⟨s₁, bursts, eq⟩ := accesses.bursts
    have same : s₁.bankStatus = s.bankStatus := by
      rcases bursts_timed bursts with ⟨-, -, rfl⟩ | ⟨-, -, rfl⟩ <;> rfl
    have status : s'.bankStatus rank bank = if rank = cfg.getRankNum lqe.address ∧
        bank = cfg.getBankNum lqe.address then bankAfter cfg t s lqe k action
        else s.bankStatus rank bank := by
      rw [eq, ← same]
      exact setBank_bankStatus s₁ _ _ _
    rw [status] at opened ⊢
    by_cases own : rank = cfg.getRankNum lqe.address ∧ bank = cfg.getBankNum lqe.address
    · rw [if_pos own] at opened ⊢
      unfold bankAfter at opened ⊢
      dsimp only at opened ⊢
      rw [if_neg policy] at opened ⊢
      by_cases later : wantedLater cfg s lqe k = true
      · rw [if_pos later, own.1, own.2]
        show Wanted cfg s' _ _ (s.bank cfg lqe).pageNum
        rw [ready.1.hit]
        exact wanted_of_wantedLater later reqL
      · rw [if_neg later] at opened
        simp [MemoryController.IsOpen] at opened
    · rw [if_neg own] at opened ⊢
      exact (h rank bank opened).erase get (fun targets => own ⟨targets.rank, targets.bank⟩) reqL

end MemoryController

namespace McSystem

variable {s s' : McSystem C}

theorem used_step (policy : cfg.policy ≠ .open) (run : Run cfg s) (h : s.mc.Used cfg)
    (e : McEvent C) (hs : McSystem.step cfg s e = .ok s') : s'.mc.Used cfg := by
  cases e with
  | add time lqe =>
    obtain ⟨reqL, -⟩ := addReqEvent_batch cfg s.mc time lqe
    obtain ⟨banks, -⟩ := addReqEvent_keeps cfg s.mc time lqe
    rw [step_add_eq hs]
    intro rank bank opened
    have status := congrFun (congrFun banks rank) bank
    obtain ⟨j, window, x, get, targets⟩ := h rank bank (status ▸ opened)
    exact ⟨j, window, x, reqL ▸ get, targets.rank, targets.bank, status ▸ targets.page⟩
  | advance t =>
    cases hs
    exact h
  | process t =>
    obtain ⟨counted, batched⟩ := batched_run run
    obtain ⟨effects, turns, -⟩ := step_turns counted batched hs
    have h := h.prepare t
    cases turns with
    | idle selects nothing state command =>
      rw [state]
      exact h
    | @command c k lqe done selects found get commands command =>
      obtain ⟨x, -, window, -⟩ := selects.found k found
      have h : ((s.mc.prepare cfg t).afterScan c).Used cfg := h
      exact h.commands policy get window commands

theorem used_run (policy : cfg.policy ≠ .open) (run : Run cfg s) : s.mc.Used cfg := by
  induction run with
  | init => exact fun rank bank opened => by simp [init, MemoryController.IsOpen] at opened
  | step e run timely hs ih => exact used_step policy run ih e hs

/-- No orphan open row: a request of the window has the rank, the bank and the page. -/
theorem open_row_wanted (policy : cfg.policy ≠ .open) (run : Run cfg s) (rank bank : Nat)
    (opened : MemoryController.IsOpen (s.mc.bankStatus rank bank)) :
    ∃ j < cfg.reqWindowSz, ∃ lqe, s.mc.reqL[j]? = some lqe ∧ rank = cfg.getRankNum lqe.address ∧
      bank = cfg.getBankNum lqe.address ∧
      (s.mc.bankStatus rank bank).pageNum = cfg.getPageNum lqe.address := by
  obtain ⟨j, window, lqe, get, targets⟩ := used_run policy run rank bank opened
  exact ⟨j, window, lqe, get, targets.rank, targets.bank, targets.page⟩

def pairOfClosed : McConfig Nat := { pairOfBanks with policy := .closed }

theorem open_row_wanted_after_read : ∃ s, Run pairOfClosed s ∧
    MemoryController.IsOpen (s.mc.bankStatus 0 0) ∧ s.log.length = 2 ∧
    ∃ j < 8, ∃ lqe, s.mc.reqL[j]? = some lqe ∧ 0 = pairOfClosed.getRankNum lqe.address ∧
      0 = pairOfClosed.getBankNum lqe.address ∧
      (s.mc.bankStatus 0 0).pageNum = pairOfClosed.getPageNum lqe.address := by
  have ends : Meets (fun _ => False)
      (fun s => (s.mc.bankStatus 0 0).actionType = .read ∧ s.log.length = 2)
      ((init pairOfClosed).follow pairOfClosed readAndEvict) := by decide +kernel
  obtain ⟨s, hs, read, two⟩ := ends.result
  have run := Run.init.follow hs
  have opened : MemoryController.IsOpen (s.mc.bankStatus 0 0) := .inr (.inl read)
  exact ⟨s, run, opened, two, open_row_wanted (by decide) run 0 0 opened⟩

end McSystem
end McSim
