import McSim.MemoryControllerRows

/-! Row hits and row commands.
Inside the batch a row hit goes before a row command. Behind it, and so in the whole window if there
are no batches, the scan stops at the first request that a command may be issued for. -/

namespace McSim

open MemoryController Contract

variable {C : Type} {cfg : McConfig C} {t k : Nat} {lqe : Lqe C}

namespace MemoryController

variable {s s' : MemoryController C}

def BatchIssuable (cfg : McConfig C) (t : Nat) (s : MemoryController C) : Prop :=
  ∃ j : Nat, j ≤ s.currBatchLast ∧ ∃ lqe, s.reqL[j]? = some lqe ∧ Issuable cfg t s lqe j

/-- The requests of the window, or of the batch if it has something to do -/
structure Considered (cfg : McConfig C) (t : Nat) (s : MemoryController C) (j : Nat) (lqe : Lqe C) :
    Prop where
  get : s.reqL[j]? = some lqe
  window : j < cfg.reqWindowSz
  batch : cfg.parBs = true → BatchIssuable cfg t s → j ≤ s.currBatchLast

/-- Row hits first: one of them is served if there is any, and no row is closed that is wanted. -/
structure HitsFirst (cfg : McConfig C) (t : Nat) (s : MemoryController C)
    (command : Option (McCommand × Lqe C)) : Prop where
  hit : ∀ j other, Considered cfg t s j other → HitReady cfg t s other →
    ∃ k lqe isWrite autoPrecharge, Considered cfg t s k lqe ∧ HitReady cfg t s lqe ∧
      command = some (.column (cfg.getRankNum lqe.address) (cfg.getBankNum lqe.address)
        (cfg.getPageNum lqe.address) isWrite autoPrecharge, lqe)
  keep : cfg.policy = .open → ∀ rank bank lqe, command = some (.precharge rank bank, lqe) →
    ∀ j other, Considered cfg t s j other →
      ¬ Targets cfg rank bank (s.bankStatus rank bank).pageNum other

/-- The batch has something to do, or there is no row hit, or the first request that a command may
be issued for is one. -/
def HitLeads (cfg : McConfig C) (t : Nat) (s : MemoryController C) : Prop :=
  (cfg.parBs = true ∧ BatchIssuable cfg t s) ∨
    (∀ j other, Considered cfg t s j other → ¬ HitReady cfg t s other) ∨
    ∃ k lqe, s.reqL[k]? = some lqe ∧ k < cfg.reqWindowSz ∧ HitReady cfg t s lqe ∧
      NoneBefore cfg t s k

theorem Commands.column_of_hit {c : Scan} {effects : McEffects C} (hit : HitReady cfg t s lqe)
    (commands : Commands cfg t (s.afterScan c) lqe k s' effects) : ∃ isWrite autoPrecharge,
      effects.command = some (.column (cfg.getRankNum lqe.address) (cfg.getBankNum lqe.address)
        (cfg.getPageNum lqe.address) isWrite autoPrecharge, lqe) := by
  cases commands with
  | activate can => exact absurd hit.1.opened can.shut
  | precharge can => exact absurd hit.1.hit can.miss
  | access ready accesses batch counts => exact ⟨_, _, accesses.command⟩

theorem Commands.hit_of_column {c : Scan} {effects : McEffects C} {rank bank page : Nat}
    {isWrite autoPrecharge : Bool} {x : Lqe C} (issuable : Issuable cfg t s lqe k)
    (commands : Commands cfg t (s.afterScan c) lqe k s' effects)
    (column : effects.command = some (.column rank bank page isWrite autoPrecharge, x)) :
    HitReady cfg t s lqe := by
  cases commands with
  | activate can => cases column
  | precharge can => cases column
  | access ready accesses batch counts =>
    rcases issuable with hit | can | can
    · exact hit
    · exact absurd ready.1.opened can.shut
    · exact absurd ready.1.hit can.miss

theorem needPrecharge_spares (needed : needPrecharge cfg s lqe k = true)
    (miss : (s.bank cfg lqe).pageNum ≠ cfg.getPageNum lqe.address) (get : s.reqL[k]? = some lqe)
    {j : Nat} {other : Lqe C} (ho : s.reqL[j]? = some other) (window : j < cfg.reqWindowSz)
    (batch : k ≤ s.currBatchLast → j ≤ s.currBatchLast) :
    ¬ Targets cfg (cfg.getRankNum lqe.address) (cfg.getBankNum lqe.address)
      (s.bank cfg lqe).pageNum other := by
  intro targets
  have mem : (other, j) ∈ s.reqL.zipIdx.take cfg.reqWindowSz := by
    refine List.mem_iff_getElem?.mpr ⟨j, ?_⟩
    rw [List.getElem?_take_of_lt window, List.getElem?_zipIdx, ho]
    simp
  rcases of_decide_eq_true (List.all_eq_true.mp needed _ mem) with outside | rfl | free
  · exact absurd (batch outside.1) (not_le.mpr outside.2)
  · rw [get] at ho
    cases ho
    exact miss targets.page
  · exact free ⟨targets.rank, targets.bank, targets.page⟩

theorem BatchIssuable.inside (busy : BatchIssuable cfg t s)
    (behind : s.currBatchLast < k → NoneBefore cfg t s k) : k ≤ s.currBatchLast := by
  obtain ⟨j, inside, other, ho, issuable⟩ := busy
  refine not_lt.mp fun past => ?_
  exact behind past j (by omega) other ho issuable

theorem Batched.par (batched : s.Batched cfg) (inside : k ≤ s.currBatchLast) :
    cfg.parBs = true := by
  cases par : cfg.parBs with
  | true => rfl
  | false =>
    have off := batched.off par
    omega

theorem Commands.spares {c : Scan} {effects : McEffects C} (batched : s.Batched cfg)
    (get : s.reqL[k]? = some lqe) (issuable : Issuable cfg t s lqe k)
    (commands : Commands cfg t (s.afterScan c) lqe k s' effects) {rank bank : Nat} {x : Lqe C}
    (precharge : effects.command = some (.precharge rank bank, x)) {j : Nat} {other : Lqe C}
    (considered : Considered cfg t s j other) :
    ¬ Targets cfg rank bank (s.bankStatus rank bank).pageNum other := by
  cases commands with
  | activate can => cases precharge
  | precharge can =>
    cases precharge
    refine needPrecharge_spares (s := s) can.needed can.miss get considered.get considered.window ?_
    exact fun inside => considered.batch (batched.par inside) ⟨k, inside, lqe, get, issuable⟩
  | access ready accesses batch counts =>
    rw [accesses.command] at precharge
    cases precharge

theorem NoneBefore.eq {k' : Nat} {x : Lqe C} (h : NoneBefore cfg t s k) (h' : NoneBefore cfg t s k')
    (get : s.reqL[k]? = some lqe) (get' : s.reqL[k']? = some x) (issuable : Issuable cfg t s lqe k)
    (issuable' : Issuable cfg t s x k') : k = k' := by
  rcases lt_trichotomy k k' with before | same | behind
  · exact absurd issuable (h' k before lqe get)
  · exact same
  · exact absurd issuable' (h k' behind x get')

theorem Turns.hitsFirst {effects : McEffects C} (batched : (prepare cfg t s).Batched cfg)
    (turns : Turns cfg t s s' effects) :
    HitsFirst cfg t (prepare cfg t s) effects.command ↔ HitLeads cfg t (prepare cfg t s) := by
  cases turns with
  | idle selects nothing state command =>
    have no_hit : ∀ j other, Considered cfg t (prepare cfg t s) j other →
        ¬ HitReady cfg t (prepare cfg t s) other := fun j other considered hit =>
      selects.idle nothing j considered.window other considered.get (.inl hit)
    rw [command]
    refine ⟨fun _ => .inr (.inl no_hit), fun _ => ⟨fun j other considered hit => ?_, ?_⟩⟩
    · exact absurd hit (no_hit j other considered)
    · exact fun _ _ _ _ none => nomatch none
  | @command c k lqe done selects found get commands command =>
    obtain ⟨x, hx, window, issuable, inside, behind⟩ := selects.found k found
    rw [get] at hx
    cases hx
    rw [command]
    by_cases busy : cfg.parBs = true ∧ BatchIssuable cfg t (prepare cfg t s)
    · have member := busy.2.inside behind
      refine ⟨fun _ => .inl busy, fun _ => ⟨fun j other considered hit => ?_,
        fun _ _ _ _ hc _ _ considered => commands.spares batched get issuable hc considered⟩⟩
      have ready : HitReady cfg t (prepare cfg t s) lqe := by
        by_contra miss
        exact inside member miss j (considered.batch busy.1 busy.2) other considered.get hit
      obtain ⟨isWrite, autoPrecharge, column⟩ := commands.column_of_hit ready
      exact ⟨k, lqe, isWrite, autoPrecharge, ⟨get, window, fun _ _ => member⟩, ready, column⟩
    · -- the candidate is the first request that a command may be issued for
      have first : NoneBefore cfg t (prepare cfg t s) k := behind (not_le.mp fun member =>
        busy ⟨batched.par member, k, member, lqe, get, issuable⟩)
      refine ⟨fun h => ?_, fun h => ⟨fun j other considered hit => ?_,
        fun _ _ _ _ hc _ _ considered => commands.spares batched get issuable hc considered⟩⟩
      · refine .inr ?_
        by_cases ready : HitReady cfg t (prepare cfg t s) lqe
        · exact .inr ⟨k, lqe, get, window, ready, first⟩
        · refine .inl fun j other considered hit => ready ?_
          obtain ⟨_, _, _, _, _, _, column⟩ := h.hit j other considered hit
          exact commands.hit_of_column issuable column
      · rcases h with h | no_hit | ⟨k', x, get', window', ready, first'⟩
        · exact absurd h busy
        · exact absurd hit (no_hit j other considered)
        · obtain rfl := first.eq first' get get' issuable (.inl ready)
          rw [get] at get'
          cases get'
          obtain ⟨isWrite, autoPrecharge, column⟩ := commands.column_of_hit ready
          exact ⟨k, lqe, isWrite, autoPrecharge,
            ⟨get, window, fun par issues => absurd ⟨par, issues⟩ busy⟩, ready, column⟩

end MemoryController

namespace McSystem

variable {s : McSystem C}

/-- When row hits go first. The controller stops only at a request that is neither read nor
written. -/
theorem hitsFirst_iff (run : Run cfg s) (t : Nat) :
    Meets (fun _ => Strange (s.mc.prepare cfg t))
      (fun r => HitsFirst cfg t (s.mc.prepare cfg t) r.2.command ↔
        HitLeads cfg t (s.mc.prepare cfg t))
      (s.mc.processEvent cfg t) := by
  obtain ⟨counted, batched⟩ := batched_run run
  have batched := batched.prepare t
  cases hp : s.mc.processEvent cfg t with
  | error a => exact processEvent_processed.of_error hp
  | ok r => exact (processEvent_turns (counted.prepare t).few batched.window hp).hitsFirst batched

/-- A request to a bank without an open row, and behind it a row hit -/
def hitBehind : List (McEvent Nat) :=
  [.add 0 { path := [], type := .read, address := 0 }, .process 0, .process 10, .process 20,
    .process 30, .add 50 { path := [], type := .read, address := 64 },
    .add 50 { path := [], type := .read, address := 8 }]

theorem hitsFirst_iff_hit_behind : ∃ s, Run pairOfBanks s ∧ s.log.length = 2 ∧
    Meets (fun _ => Strange (s.mc.prepare pairOfBanks 50))
      (fun r => HitsFirst pairOfBanks 50 (s.mc.prepare pairOfBanks 50) r.2.command ↔
        HitLeads pairOfBanks 50 (s.mc.prepare pairOfBanks 50))
          (s.mc.processEvent pairOfBanks 50) := by
  have ends : Meets (fun _ => False) (fun s => s.log.length = 2)
      ((init pairOfBanks).follow pairOfBanks hitBehind) := by decide +kernel
  obtain ⟨s, hs, two⟩ := ends.result
  have run := Run.init.follow hs
  exact ⟨s, run, two, hitsFirst_iff run 50⟩

/-- A row is opened, and the row hit behind that request waits. -/
theorem hit_passed_over : ∃ s mc effects, Run pairOfBanks s ∧
    s.mc.processEvent pairOfBanks 50 = .ok (mc, effects) ∧
    ¬ HitsFirst pairOfBanks 50 (s.mc.prepare pairOfBanks 50) effects.command := by
  have ends : Meets (fun _ => False) (fun s =>
      let p := s.mc.prepare pairOfBanks 50
      let hit : Lqe Nat := { path := [], type := .read, address := 8 }
      p.reqL[1]? = some hit ∧ (p.bank pairOfBanks hit).actionType = .read ∧
        (p.bank pairOfBanks hit).pageNum = pairOfBanks.getPageNum 8 ∧
        (p.bank pairOfBanks hit).actionTime + pairOfBanks.ticks pairOfBanks.tBBL ≤ 50 ∧
        readMeets pairOfBanks 50 p 0 (OrderedMap.lowerBound 50 p.dpStatus)
          (OrderedMap.lowerBound 50 p.rdDpStatus) = true ∧
        Meets (fun _ => False) (fun r => r.2.command.map (·.1) = some (.activate 0 1 0))
          (s.mc.processEvent pairOfBanks 50))
      ((init pairOfBanks).follow pairOfBanks hitBehind) := by decide +kernel
  obtain ⟨s, hs, get, status, page, tBBL, met, processed⟩ := ends.result
  obtain ⟨⟨mc, effects⟩, hp, activate⟩ := processed.result
  refine ⟨s, mc, effects, Run.init.follow hs, hp, fun first => ?_⟩
  have past := (Nat.le_add_right _ _).trans tBBL
  have can : CanAccess pairOfBanks 50 (s.mc.prepare pairOfBanks 50)
      { path := [], type := .read, address := 8 } :=
    ⟨.inr (.inl status), page, past, fun h => (nomatch status.symm.trans h), tBBL, fun _ => met,
      fun h => (nomatch h)⟩
  obtain ⟨k, lqe, isWrite, autoPrecharge, -, -, column⟩ :=
    first.hit 1 _ ⟨get, by decide, fun h => (nomatch h)⟩ ⟨can, .inl rfl⟩
  rw [column] at activate
  cases activate

end McSystem
end McSim
