import McSim.MemoryController
import Mathlib.Data.List.DropRight

/-! What the memory controller selects.
A request is only picked if its command is allowed in the state before; everything about the order
of commands follows from these conditions. -/

namespace McSim.MemoryController

open Contract

variable {C : Type} {cfg : McConfig C} {s s' : MemoryController C} {t i : Nat} {lqe : Lqe C}

def IsOpen (b : BankStatus) : Prop :=
  b.actionType = .activate ∨ b.actionType = .read ∨ b.actionType = .write

structure CanActivate (cfg : McConfig C) (t : Nat) (s : MemoryController C) (lqe : Lqe C) :
    Prop where
  shut : ¬ IsOpen (s.bank cfg lqe)
  precharged : (s.bank cfg lqe).actionType = .precharge →
    (s.bank cfg lqe).actionTime + cfg.ticks cfg.tRP ≤ t
  past : (s.bank cfg lqe).actionTime ≤ t
  tRR : s.lastActivateTime (cfg.getRankNum lqe.address) + cfg.ticks cfg.tRR ≤ t

/-- The row of another page may be closed for a request. -/
structure CanPrecharge (cfg : McConfig C) (t : Nat) (s : MemoryController C) (lqe : Lqe C) :
    Prop where
  opened : IsOpen (s.bank cfg lqe)
  miss : (s.bank cfg lqe).pageNum ≠ cfg.getPageNum lqe.address
  policy : cfg.policy = .open
  past : (s.bank cfg lqe).actionTime ≤ t

structure CanAccess (cfg : McConfig C) (t : Nat) (s : MemoryController C) (lqe : Lqe C) : Prop where
  opened : IsOpen (s.bank cfg lqe)
  hit : (s.bank cfg lqe).pageNum = cfg.getPageNum lqe.address
  past : (s.bank cfg lqe).actionTime ≤ t
  tRCD : (s.bank cfg lqe).actionType = .activate →
    (s.bank cfg lqe).actionTime + cfg.ticks cfg.tRCD ≤ t
  tBBL : (s.bank cfg lqe).actionTime + cfg.ticks cfg.tBBL ≤ t
  read : isRead lqe.type = true → readMeets cfg t s (cfg.getRankNum lqe.address)
    (OrderedMap.lowerBound t s.dpStatus) (OrderedMap.lowerBound t s.rdDpStatus) = true
  write : isWrite lqe.type = true → writeMeets cfg t s (cfg.getRankNum lqe.address)
    (OrderedMap.lowerBound t s.dpStatus) (OrderedMap.lowerBound t s.wrDpStatus) = true

def Ready (cfg : McConfig C) (t : Nat) (s : MemoryController C) (lqe : Lqe C) : Prop :=
  CanActivate cfg t s lqe ∨ CanPrecharge cfg t s lqe ∨ CanAccess cfg t s lqe

def Strange (s : MemoryController C) : Prop :=
  ∃ lqe ∈ s.reqL, isRead lqe.type = false ∧ isWrite lqe.type = false

def Trimmed (t : Nat) (path path' : List (Nat × McBankAction)) : Prop :=
  path' = path ∨ path' = OrderedMap.lowerBound t path

theorem Trimmed.again {path path' : List (Nat × McBankAction)} (h : Trimmed t path path') :
    OrderedMap.lowerBound t path' = OrderedMap.lowerBound t path := by
  rcases h with rfl | rfl
  · rfl
  · exact List.dropWhile_idempotent _ _

structure Scanned (cfg : McConfig C) (t : Nat) (s : MemoryController C) (c : Scan) : Prop where
  ready : ∀ i, c.candidate = some i → ∃ lqe, s.reqL[i]? = some lqe ∧ Ready cfg t s lqe
  dp : Trimmed t s.dpStatus c.dpStatus
  rdDp : Trimmed t s.rdDpStatus c.rdDpStatus
  wrDp : Trimmed t s.wrDpStatus c.wrDpStatus

theorem offer_scanned {c : Scan} (h : Scanned cfg t s c) (hi : s.reqL[i]? = some lqe)
    (ready : s.lastActivateTime (cfg.getRankNum lqe.address) + cfg.ticks cfg.tRR ≤ t →
      Ready cfg t s lqe) : Scanned cfg t s (offer cfg t s lqe i c) := by
  unfold offer
  dsimp only
  split
  · rename_i offered
    refine ⟨fun j hj => ?_, h.dp, h.rdDp, h.wrDp⟩
    cases hj
    exact ⟨lqe, hi, ready offered.2.1⟩
  · exact h

theorem offerHit_scanned {c : Scan} {met : Bool} (h : Scanned cfg t s c)
    (hi : s.reqL[i]? = some lqe) (ready : met = true → Ready cfg t s lqe) :
      Scanned cfg t s (offerHit s lqe i met c) := by
  unfold offerHit
  dsimp only
  split
  · rename_i offered
    refine ⟨fun j hj => ?_, h.dp, h.rdDp, h.wrDp⟩
    cases hj
    exact ⟨lqe, hi, ready offered.1⟩
  · exact h

theorem not_isWrite {type : EventType} (h : isRead type = true) : isWrite type = false := by
  revert h
  cases type <;> simp [isRead, isWrite]

theorem considerHit_scanned {c : Scan} (h : Scanned cfg t s c) (hi : s.reqL[i]? = some lqe)
    (ready : (isRead lqe.type = true → readMeets cfg t s (cfg.getRankNum lqe.address)
        (OrderedMap.lowerBound t s.dpStatus) (OrderedMap.lowerBound t s.rdDpStatus) = true) →
      (isWrite lqe.type = true → writeMeets cfg t s (cfg.getRankNum lqe.address)
        (OrderedMap.lowerBound t s.dpStatus) (OrderedMap.lowerBound t s.wrDpStatus) = true) →
      Ready cfg t s lqe) :
    Meets (fun _ => Strange s) (Scanned cfg t s) (considerHit cfg t s lqe i c) := by
  unfold considerHit
  dsimp only
  split
  · rename_i isRead'
    refine offerHit_scanned ⟨h.ready, .inr h.dp.again, .inr h.rdDp.again, h.wrDp⟩ hi fun met => ?_
    refine ready (fun _ => ?_) fun isWrite' => ?_
    · rwa [h.dp.again, h.rdDp.again] at met
    · rw [not_isWrite isRead'] at isWrite'
      cases isWrite'
  · rename_i notRead
    split
    · refine offerHit_scanned ⟨h.ready, .inr h.dp.again, h.rdDp, .inr h.wrDp.again⟩ hi fun met => ?_
      refine ready (fun isRead' => absurd isRead' notRead) fun _ => ?_
      rwa [h.dp.again, h.wrDp.again] at met
    · rename_i notWrite
      exact ⟨lqe, List.mem_of_getElem? hi, Bool.eq_false_iff.mpr notRead,
        Bool.eq_false_iff.mpr notWrite⟩

theorem considerOpen_scanned {c : Scan} (h : Scanned cfg t s c) (hi : s.reqL[i]? = some lqe)
    (opened : IsOpen (s.bank cfg lqe)) (past : (s.bank cfg lqe).actionTime ≤ t)
    (tRCD : (s.bank cfg lqe).actionType = .activate →
      (s.bank cfg lqe).actionTime + cfg.ticks cfg.tRCD ≤ t) :
    Meets (fun _ => Strange s) (Scanned cfg t s) (considerOpen cfg t s lqe i c) := by
  unfold considerOpen
  dsimp only
  split
  · exact h
  · rename_i tBBL
    split
    · rename_i miss
      split
      · rename_i policy
        exact offer_scanned h hi fun _ => .inr (.inl ⟨opened, miss, policy.1, past⟩)
      · exact h
    · rename_i hit
      exact considerHit_scanned h hi fun read write =>
        .inr (.inr ⟨opened, not_not.mp hit, past, tRCD, not_lt.mp tBBL, read, write⟩)

theorem consider_scanned {c : Scan} (h : Scanned cfg t s c) (hi : s.reqL[i]? = some lqe) :
    Meets (fun _ => Strange s) (Scanned cfg t s) (consider cfg t s lqe i c) := by
  unfold consider
  dsimp only
  split
  · exact h
  · rename_i past
    have past := not_lt.mp past
    split
    · rename_i precharge
      split
      · exact h
      · rename_i tRP
        refine offer_scanned h hi fun tRR => .inl ⟨?_, fun _ => not_lt.mp tRP, past, tRR⟩
        simp [IsOpen, precharge]
    · rename_i idle
      refine offer_scanned h hi fun tRR => .inl ⟨?_, fun hp => ?_, past, tRR⟩
      · simp [IsOpen, idle]
      · cases idle.symm.trans hp
    · rename_i activate
      split
      · exact h
      · rename_i tRCD
        exact considerOpen_scanned h hi (.inl activate) past fun _ => not_lt.mp tRCD
    · rename_i read
      refine considerOpen_scanned h hi (.inr (.inl read)) past fun activate => ?_
      cases read.symm.trans activate
    · rename_i write
      refine considerOpen_scanned h hi (.inr (.inr write)) past fun activate => ?_
      cases write.symm.trans activate

theorem scan_scanned {rest : List (Lqe C)} {c : Scan} (h : Scanned cfg t s c)
    (hrest : s.reqL.drop i = rest) :
    Meets (fun _ => Strange s) (Scanned cfg t s) (scan cfg t s rest i c) := by
  induction rest generalizing i c with
  | nil => exact h
  | cons lqe rest ih =>
    unfold scan
    split
    · exact h
    · have hi : s.reqL[i]? = some lqe := by
        rw [← List.head?_drop, hrest]
        rfl
      rw [meets_bind]
      refine (consider_scanned h hi).mono (fun c hc => ih hc ?_) fun _ h => h
      rw [← List.drop_drop, hrest]
      rfl

/-- The state with the requests of the tick, and with its data paths trimmed -/
structure Prepared (cfg : McConfig C) (t : Nat) (s s' : MemoryController C) : Prop where
  reqL : s'.reqL = s.reqL ++ (Multimap.front t s.reqEvent).map (·.2)
  reqEvent : s'.reqEvent = s.reqEvent.dropWhile (fun e => e.1 = t)
  numReqs : s'.numReqs = s.numReqs
  numRead : s'.numRead = s.numRead
  numWrite : s'.numWrite = s.numWrite
  bankStatus : s'.bankStatus = s.bankStatus
  lastActivateTime : s'.lastActivateTime = s.lastActivateTime
  lastWriteTime : s'.lastWriteTime = s.lastWriteTime
  lastReadTime : s'.lastReadTime = s.lastReadTime
  lastReadTimeRank : s'.lastReadTimeRank = s.lastReadTimeRank
  dp : Trimmed t s.dpStatus s'.dpStatus
  rdDp : Trimmed t s.rdDpStatus s'.rdDpStatus
  wrDp : Trimmed t s.wrDpStatus s'.wrDpStatus

/-- What a request gets with its column command: the controller after its burst, what is sent back
and what is deleted. -/
inductive Bursts (cfg : McConfig C) (t : Nat) (s : MemoryController C) (lqe : Lqe C) :
    McBankAction → MemoryController C → List (Call C) → List (Lqe C) → Prop
  | read (h : isRead lqe.type = true) :
    Bursts cfg t s lqe .read (readBurst cfg t s (cfg.getRankNum lqe.address)) [reply cfg t lqe] []
  | readWrite (h : lqe.type = .sRdWr) :
    Bursts cfg t s lqe .write (writeBurst cfg t s (cfg.getRankNum lqe.address))
      [reply cfg t { lqe with type := .sRd }] []
  | evict (h : isEvict lqe.type = true) :
    Bursts cfg t s lqe .write (writeBurst cfg t s (cfg.getRankNum lqe.address)) [] [lqe]

structure Accesses (cfg : McConfig C) (t : Nat) (s : MemoryController C) (lqe : Lqe C) (i : Nat)
    (action : McBankAction) (s' : MemoryController C) (effects : McEffects C) : Prop where
  bursts : ∃ s₁, Bursts cfg t s lqe action s₁ effects.calls effects.deleted ∧
    s' = { s₁.setBank (cfg.getRankNum lqe.address) (cfg.getBankNum lqe.address)
        (bankAfter cfg t s lqe i action) with
      numReqFromATh := s'.numReqFromATh, currBatchLast := s'.currBatchLast
      reqL := s.reqL.eraseIdx i }
  command : effects.command =
    some (.column (cfg.getRankNum lqe.address) (cfg.getBankNum lqe.address)
    (cfg.getPageNum lqe.address) (action = .write)
    ((bankAfter cfg t s lqe i action).actionType = .precharge), lqe)

inductive Does (cfg : McConfig C) (t : Nat) (s : MemoryController C) :
    MemoryController C → McEffects C → Prop
  | idle : Does cfg t s s {}
  | activate {lqe : Lqe C} {i : Nat} (hi : s.reqL[i]? = some lqe) (can : CanActivate cfg t s lqe) :
    Does cfg t s (activateRow cfg t s lqe).1 (activateRow cfg t s lqe).2
  | precharge {lqe : Lqe C} {i : Nat} (hi : s.reqL[i]? = some lqe)
      (can : CanPrecharge cfg t s lqe) :
    Does cfg t s (prechargeRow cfg t s lqe).1 (prechargeRow cfg t s lqe).2
  | access {lqe : Lqe C} {i : Nat} {action : McBankAction} {s' : MemoryController C}
    {effects : McEffects C} (hi : s.reqL[i]? = some lqe) (can : CanAccess cfg t s lqe)
    (accesses : Accesses cfg t s lqe i action s' effects) : Does cfg t s s' effects

theorem accessColumn_accesses (hi : s.reqL[i]? = some lqe) :
    Meets (fun _ => Strange s) (fun r => ∃ action, Accesses cfg t s lqe i action r.1 r.2)
      (accessColumn cfg t s lqe i) := by
  unfold accessColumn
  dsimp only
  split
  · rename_i isRead'
    exact ⟨.read, ⟨_, .read isRead', rfl⟩, rfl⟩
  · rename_i notRead
    split
    · rename_i readWrite
      exact ⟨.write, ⟨_, .readWrite readWrite, rfl⟩, rfl⟩
    · rename_i notReadWrite
      split
      · rename_i isWrite'
        have evict : isEvict lqe.type = true := by
          revert isWrite' notReadWrite
          cases lqe.type <;> simp [isWrite, isEvict]
        exact ⟨.write, ⟨_, .evict evict, rfl⟩, rfl⟩
      · rename_i notWrite
        exact ⟨lqe, List.mem_of_getElem? hi, Bool.eq_false_iff.mpr notRead,
          Bool.eq_false_iff.mpr notWrite⟩

theorem issue_does (hi : s.reqL[i]? = some lqe) (ready : Ready cfg t s lqe) :
    Meets (fun _ => Strange s) (fun r => Does cfg t s r.1 r.2) (issue cfg t s lqe i) := by
  have row : ¬ IsOpen (s.bank cfg lqe) → CanActivate cfg t s lqe := fun shut => by
    rcases ready with can | can | can
    · exact can
    · exact absurd can.opened shut
    · exact absurd can.opened shut
  have column : IsOpen (s.bank cfg lqe) → Meets (fun _ => Strange s) (fun r => Does cfg t s r.1 r.2)
      (if (s.bank cfg lqe).pageNum ≠ cfg.getPageNum lqe.address then
        if cfg.policy = .open then return prechargeRow cfg t s lqe else return (s, {})
      else accessColumn cfg t s lqe i) := fun opened => by
    split
    · rename_i miss
      split
      · refine .precharge hi ?_
        rcases ready with can | can | can
        · exact absurd opened can.shut
        · exact can
        · exact absurd can.hit miss
      · exact .idle
    · rename_i hit
      refine (accessColumn_accesses hi).mono (fun r hr => ?_) fun _ h => h
      obtain ⟨action, accesses⟩ := hr
      refine .access hi ?_ accesses
      rcases ready with can | can | can
      · exact absurd opened can.shut
      · exact absurd (not_not.mp hit) can.miss
      · exact can
  unfold issue
  dsimp only
  split
  · rename_i precharge
    exact .activate hi (row (by simp [IsOpen, precharge]))
  · rename_i idle
    exact .activate hi (row (by simp [IsOpen, idle]))
  · rename_i activate
    exact column (.inl activate)
  · rename_i read
    exact column (.inr (.inl read))
  · rename_i write
    exact column (.inr (.inr write))

theorem Ready.afterScan {c : Scan} (h : Ready cfg t s lqe) (scanned : Scanned cfg t s c) :
    Ready cfg t (s.afterScan c) lqe := by
  rcases h with can | can | can
  · exact .inl ⟨can.shut, can.precharged, can.past, can.tRR⟩
  · exact .inr (.inl ⟨can.opened, can.miss, can.policy, can.past⟩)
  · refine .inr (.inr ⟨can.opened, can.hit, can.past, can.tRCD, can.tBBL, fun hr => ?_,
      fun hw => ?_⟩)
    · show readMeets cfg t s _ (OrderedMap.lowerBound t c.dpStatus)
        (OrderedMap.lowerBound t c.rdDpStatus) = true
      rw [scanned.dp.again, scanned.rdDp.again]
      exact can.read hr
    · show writeMeets cfg t s _ (OrderedMap.lowerBound t c.dpStatus)
        (OrderedMap.lowerBound t c.wrDpStatus) = true
      rw [scanned.dp.again, scanned.wrDp.again]
      exact can.write hw

theorem issueFor_does {c : Scan} (scanned : Scanned cfg t s c) :
    Meets (fun _ => Strange s) (fun r => Does cfg t (s.afterScan c) r.1 r.2)
      (issueFor cfg t (s.afterScan c) c.candidate) := by
  cases hc : c.candidate with
  | none => exact .idle
  | some i =>
    obtain ⟨lqe, hi, ready⟩ := scanned.ready i hc
    have hi' : (s.afterScan c).reqL[i]? = some lqe := hi
    unfold issueFor
    dsimp only
    rw [hi']
    exact issue_does hi' (ready.afterScan scanned)

theorem prepared {c : Scan}
    (scanned : Scanned cfg t (preProcessing cfg t { s with lastProcessTime := t }) c) :
    Prepared cfg t s ((preProcessing cfg t { s with lastProcessTime := t }).afterScan c) :=
  ⟨rfl, rfl, rfl, rfl, rfl, rfl, rfl, rfl, rfl, rfl, scanned.dp, scanned.rdDp, scanned.wrDp⟩

/-- `process_event`: the requests of the tick join, and at most one command is issued. -/
structure Processed (cfg : McConfig C) (t : Nat) (s s' : MemoryController C)
    (effects : McEffects C) :
    Prop where
  does : ∃ s₁ done, Prepared cfg t s s₁ ∧ Does cfg t s₁ s' done ∧ effects.calls = done.calls ∧
    effects.deleted = done.deleted ∧ effects.command = done.command
  wakeups : effects.wakeups = if s'.reqL = [] then [] else [t + cfg.processInterval]

theorem processEvent_processed :
    Meets (fun _ => Strange (preProcessing cfg t s)) (fun r => Processed cfg t s r.1 r.2)
      (processEvent cfg t s) := by
  unfold processEvent
  simp only [meets_bind, meets_pure]
  have start : Scanned cfg t (preProcessing cfg t { s with lastProcessTime := t })
      (startScan (preProcessing cfg t { s with lastProcessTime := t })) :=
    { ready := fun i hi => (by cases hi), dp := .inl rfl, rdDp := .inl rfl, wrDp := .inl rfl }
  refine (scan_scanned start List.drop_zero).mono (fun c scanned => ?_) fun _ h => h
  refine (issueFor_does scanned).mono (fun r does => ?_) fun _ h => h
  exact ⟨⟨_, r.2, prepared scanned, does, rfl, rfl, rfl⟩, rfl⟩

end McSim.MemoryController
