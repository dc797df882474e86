import McSim.MemoryControllerSelection

/-! Requests in the memory controller.
A request is in the event map, in the list, or it has had its column command. -/

namespace McSim

open MemoryController Contract

variable {C : Type} {cfg : McConfig C}

/-- A command goes to the bank, and for the page, of its request. -/
def McCommand.IsFor (cfg : McConfig C) (lqe : Lqe C) : McCommand → Prop
  | .activate rank bank page | .column rank bank page _ _ =>
    rank = cfg.getRankNum lqe.address ∧ bank = cfg.getBankNum lqe.address ∧
      page = cfg.getPageNum lqe.address
  | .precharge rank bank => rank = cfg.getRankNum lqe.address ∧ bank = cfg.getBankNum lqe.address

def servedBy : Nat × McCommand × Lqe C → Option (Lqe C)
  | (_, .column .., lqe) => some lqe
  | _ => none

def served (log : List (Nat × McCommand × Lqe C)) : List (Lqe C) := log.filterMap servedBy

def replied (lqe : Lqe C) : Lqe C := if lqe.type = .sRdWr then { lqe with type := .sRd } else lqe

/-- One reply to the directory, with the element of the request, unless it is an eviction -/
def answer (cfg : McConfig C) : Nat × McCommand × Lqe C → List (Call C)
  | (t, .column .., lqe) =>
    if isEvict lqe.type then [] else [reply cfg t (replied lqe)]
  | _ => []

namespace McSystem

variable {s s' : McSystem C} {t : Nat}

/-- Where the requests are, and that there is a wake-up for those that wait. -/
structure Conserved (cfg : McConfig C) (s : McSystem C) : Prop where
  count : s.mc.numReqs = s.mc.numRead + s.mc.numWrite + s.mc.reqL.length + s.mc.reqEvent.length
  once : (s.mc.reqEvent.map (·.2) ++ s.mc.reqL ++ served s.log).Perm s.added
  own : ∀ e ∈ s.log, e.2.1.IsFor cfg e.2.2
  known : ∀ lqe ∈ served s.log, isRead lqe.type = true ∨ isWrite lqe.type = true
  calls : s.calls = s.log.flatMap (answer cfg)
  deleted : s.deleted = (served s.log).filter (fun lqe => isEvict lqe.type)
  due : ∀ e ∈ s.mc.reqEvent, e.1 ∈ s.agenda.events
  again : s.mc.reqL ≠ [] → ∃ t ∈ s.agenda.last, t + cfg.processInterval ∈ s.agenda.events
  ahead : ∀ n ∈ s.agenda.now, ∀ u ∈ s.agenda.events, n ≤ u
  ordered : Multimap.Ordered s.mc.reqEvent

structure Moves (cfg : McConfig C) (t : Nat) (mc mc' : MemoryController C) (effects : McEffects C) :
    Prop where
  numReqs : mc'.numReqs = mc.numReqs
  reqEvent : mc'.reqEvent = mc.reqEvent
  count : mc'.numRead + mc'.numWrite + mc'.reqL.length = mc.numRead + mc.numWrite + mc.reqL.length
  once : (mc'.reqL ++ served (effects.command.map fun c => (t, c)).toList).Perm mc.reqL
  own : ∀ c lqe, effects.command = some (c, lqe) → c.IsFor cfg lqe
  known : ∀ lqe ∈ served (effects.command.map fun c => (t, c)).toList,
    isRead lqe.type = true ∨ isWrite lqe.type = true
  calls : effects.calls = (effects.command.map fun c => (t, c)).toList.flatMap (answer cfg)
  deleted : effects.deleted =
    (served (effects.command.map fun c => (t, c)).toList).filter fun lqe => isEvict lqe.type

structure BurstFacts (cfg : McConfig C) (t : Nat) (mc mc' : MemoryController C) (lqe : Lqe C)
    (calls : List (Call C)) (deleted : List (Lqe C)) : Prop where
  numReqs : mc'.numReqs = mc.numReqs
  reqEvent : mc'.reqEvent = mc.reqEvent
  count : mc'.numRead + mc'.numWrite = mc.numRead + mc.numWrite + 1
  known : isRead lqe.type = true ∨ isWrite lqe.type = true
  calls : calls = if isEvict lqe.type then [] else [reply cfg t (replied lqe)]
  deleted : deleted = if isEvict lqe.type then [lqe] else []

theorem bursts_facts {mc mc' : MemoryController C} {lqe : Lqe C} {action : McBankAction}
    {calls : List (Call C)} {deleted : List (Lqe C)}
    (h : Bursts cfg t mc lqe action mc' calls deleted) :
      BurstFacts cfg t mc mc' lqe calls deleted := by
  cases h with
  | read hr =>
    have evict : isEvict lqe.type = false := by
      revert hr
      cases lqe.type <;> simp [isRead, isEvict]
    have same : replied lqe = lqe := if_neg fun h => by simp [h, isRead] at hr
    refine ⟨rfl, rfl, ?_, .inl hr, by simp [evict, same], by simp [evict]⟩
    show mc.numRead + 1 + mc.numWrite = _
    omega
  | readWrite hr =>
    have turned : replied lqe = { lqe with type := .sRd } := if_pos hr
    exact ⟨rfl, rfl, rfl, .inr
      (by rw [hr]; rfl), by simp [hr, turned, isEvict], by simp [hr, isEvict]⟩
  | evict he =>
    refine ⟨rfl, rfl, rfl, .inr ?_, by simp [he], by simp [he]⟩
    revert he
    cases lqe.type <;> simp [isEvict, isWrite]

theorem moves_access {mc mc' : MemoryController C} {effects : McEffects C} {lqe : Lqe C} {i : Nat}
    {action : McBankAction} (hi : mc.reqL[i]? = some lqe)
    (h : Accesses cfg t mc lqe i action mc' effects) : Moves cfg t mc mc' effects := by
  obtain ⟨mc₁, bursts, eq⟩ := h.bursts
  have facts := bursts_facts bursts
  obtain ⟨hlt, get⟩ := List.getElem?_eq_some_iff.mp hi
  have left : (lqe :: mc.reqL.eraseIdx i).Perm mc.reqL := by
    rw [← get]
    exact List.getElem_cons_eraseIdx_perm hlt
  have length := left.length_eq
  rw [List.length_cons] at length
  have reqL : mc'.reqL = mc.reqL.eraseIdx i := by rw [eq]
  have one : served (effects.command.map fun c => (t, c)).toList = [lqe] := by rw [h.command]; rfl
  refine ⟨?_, ?_, ?_, ?_, fun c lqe' hc => ?_, fun lqe' mem => ?_, ?_, ?_⟩
  · rw [eq]
    exact facts.numReqs
  · rw [eq]
    exact facts.reqEvent
  · have counts : mc'.numRead + mc'.numWrite = mc₁.numRead + mc₁.numWrite := by rw [eq]; rfl
    rw [counts, facts.count, reqL]
    omega
  · rw [one, reqL]
    exact List.perm_append_comm.trans left
  · rw [h.command] at hc
    cases hc
    exact ⟨rfl, rfl, rfl⟩
  · rw [one] at mem
    rw [List.mem_singleton.mp mem]
    exact facts.known
  · rw [h.command, facts.calls]
    exact (List.append_nil _).symm
  · rw [one, facts.deleted]
    cases he : isEvict lqe.type <;> simp [he]

theorem moves_does {mc mc' : MemoryController C} {effects : McEffects C}
    (h : Does cfg t mc mc' effects) : Moves cfg t mc mc' effects := by
  have row : ∀ (mc' : MemoryController C) (command : McCommand) (lqe : Lqe C),
      mc'.numReqs = mc.numReqs → mc'.reqEvent = mc.reqEvent → mc'.numRead = mc.numRead →
      mc'.numWrite = mc.numWrite → mc'.reqL = mc.reqL → servedBy (t, command, lqe) = none →
      answer cfg (t, command, lqe) = [] → command.IsFor cfg lqe →
      Moves cfg t mc mc' { command := some (command, lqe) } := by
    intro mc' command lqe hn he hr hw hl hs ha own
    have none : served (Option.toList (some (t, command, lqe))) = [] := by
      rw [served, Option.toList_some, List.filterMap_cons_none hs]
      rfl
    refine ⟨hn, he, by rw [hr, hw, hl], ?_, fun c lqe' hc => ?_, ?_, ?_, ?_⟩
    · rw [Option.map_some, none, List.append_nil, hl]
    · cases hc
      exact own
    · rw [Option.map_some, none]
      exact fun _ h => by cases h
    · rw [Option.map_some, Option.toList_some, List.flatMap_singleton, ha]
    · rw [Option.map_some, none]
      rfl
  cases h with
  | idle =>
    refine ⟨rfl, rfl, rfl, ?_, fun _ _ hc => (by cases hc), fun _ h => (by cases h), rfl, rfl⟩
    exact List.perm_append_comm
  | @activate lqe i hi can =>
    exact row (activateRow cfg t mc lqe).1 _ lqe rfl rfl rfl rfl rfl rfl rfl ⟨rfl, rfl, rfl⟩
  | @precharge lqe i hi can =>
    exact row (prechargeRow cfg t mc lqe).1 _ lqe rfl rfl rfl rfl rfl rfl rfl ⟨rfl, rfl⟩
  | access hi can accesses => exact moves_access hi accesses

theorem step_add (off : cfg.isFixedLatency = false) (off' : cfg.isFixedBwNLatency = false)
    {time : Nat} {lqe : Lqe C} (hs : step cfg s (.add time lqe) = .ok s') : s' = { s with
      added := s.added ++ [lqe]
      agenda := s.agenda.add (ceilByY time cfg.processInterval)
      mc := { s.mc with
        numReqs := s.mc.numReqs + 1
        reqEvent := Multimap.insert (ceilByY time cfg.processInterval) lqe s.mc.reqEvent } } := by
  have waits : s.mc.addReqEvent cfg time lqe = ({ s.mc with
      numReqs := s.mc.numReqs + 1
      reqEvent := Multimap.insert (ceilByY time cfg.processInterval) lqe s.mc.reqEvent },
      { wakeups := [ceilByY time cfg.processInterval] }) := by
    unfold addReqEvent
    rw [off, off']
    rfl
  have stepped : step cfg s (.add time lqe) = .ok ({ s with added := s.added ++ [lqe] }.record time
      (s.mc.addReqEvent cfg time lqe).1 (s.mc.addReqEvent cfg time lqe).2) := rfl
  rw [stepped, waits] at hs
  cases hs
  simp [record]

def pairOfBanks : McConfig Nat where
  directory := 0
  processInterval := 10
  processInterval_pos := (by decide : 10 > 0)
  tRCD := 2
  tRR := 1
  tRP := 2
  tCL := 3
  tBL := 2
  tBBL := 1
  tRAS := 4
  tWRBUB := 1
  tRWBUB := 1
  tRRBUB := 1
  tWTR := 1
  reqWindowSz := 8
  mcToDirT := 5
  rankInterleaveBaseBit := 14
  bankInterleaveBaseBit := 6
  pageSzBaseBit := 8
  mcInterleaveBaseBit := 20
  interleaveXorBaseBit := 30
  numMcs := 1
  numRanksPerMc := 1
  numBanksPerRank := 2
  parBs := false
  policy := .open
  refreshInterval := 0
  fullDuplex := false
  isFixedLatency := false
  isFixedBwNLatency := false

/-- A read and an eviction to one row, the first of them served -/
def readAndEvict : List (McEvent Nat) :=
  [.add 0 { path := [], type := .read, address := 0 },
    .add 5 { path := [], type := .evict, address := 8 },
    .process 0, .process 10, .process 20, .process 30]

end McSystem
end McSim
