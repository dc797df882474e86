import McSim.CacheL1Sets
import McSim.Traffic

/-! What a first-level cache does with the elements it takes. Each is passed on at most once,
without the name of the cache where it is a reply and with it where it is a request that misses. -/

namespace McSim.CacheL1

open Contract Weighing

variable {C : Type} {w : Weight C} {part : C → Part C} {cfg : L1Config C} {t : Nat} {n : Nat}
  {lqe : Lqe C}

def waiting (s : CacheL1 C) :
    List (Nat × Lqe C) × List (Nat × Lqe C) × List (Lqe C) × (Nat → List (Lqe C)) :=
  (s.reqEvent, s.repEvent, s.repQ, s.reqQs)

theorem inL1_congr {s s' : CacheL1 C} (h : s'.waiting = s.waiting) :
    w.inL1 cfg s' = w.inL1 cfg s := by
  simp only [waiting, Prod.mk.injEq] at h
  obtain ⟨req, rep, repQ, reqQs⟩ := h
  rw [Weight.inL1, Weight.inL1, req, rep, repQ, reqQs]

theorem addEventToLsu_sends (w : Weight C) (part : C → Part C) (cfg : L1Config C) (t : Nat)
    (lqe : Lqe C) :
    Meets (fun _ => True) (fun call => Sends w part (w.whole lqe) [call] ∧ lqe.path ≠ [])
      (addEventToLsu cfg t lqe) := by
  unfold addEventToLsu
  rw [meets_bind, Lqe.meets_top]
  refine ⟨fun _ => trivial, fun c path hp => ⟨?_, by rw [hp]; exact List.cons_ne_nil _ _⟩⟩
  cases cfg.isData with
  | true => exact Sends.one (w.load_le_whole lqe) (routed_of_head rfl (by rw [hp]; rfl))
  | false => exact Sends.one (w.charge_req_le part rfl) fun _ => trivial

theorem toL2Rep_sends (h : cargo lqe.type ≠ .stack) :
    Sends w part (w.load lqe) [toL2Rep cfg t lqe] := by
  refine Sends.one le_rfl (routed_of_type fun hn => h ?_)
  rw [show lqe.type = .nack from hn]
  rfl

namespace Walk

variable {s : CacheL1 C} {wk : Walk C} {index : Nat}

/-- A walk, with no fill and no nack, that has sent its element at most once -/
structure Passing (w : Weight C) (part : C → Part C) (s : CacheL1 C) (n : Nat) (wk : Walk C) :
    Prop where
  type : ¬ IsFill wk.lqe.type ∧ wk.lqe.type ≠ .nack
  waiting : wk.cache.waiting = s.waiting
  counts : wk.cache.stats.counts = s.stats.counts
  sends : ∃ k, Sends w part k wk.effects.calls ∧ k + (if wk.sentToL2 then 0 else w.load wk.lqe) ≤ n

theorem passing_start (w : Weight C) (part : C → Part C) (s : CacheL1 C)
    (h : ¬ IsFill lqe.type ∧ lqe.type ≠ .nack) :
      Passing w part s (w.load lqe) { cache := s, lqe } := ⟨h, rfl, rfl, 0, .nil, by simp⟩

theorem Passing.calls (h : Passing w part s n wk) : Sends w part n wk.effects.calls := by
  obtain ⟨k, sends, hk⟩ := h.sends
  exact sends.mono (by omega)

theorem Passing.count (h : Passing w part s n wk) {f : L1Stats → L1Stats}
    (hf : ∀ st, (f st).counts = st.counts) : Passing w part s n (wk.count f) :=
  ⟨h.type, h.waiting, (hf _).trans h.counts, h.sends⟩

theorem Passing.setState (h : Passing w part s n wk) (state : CoherenceState) :
    Passing w part s n (wk.setState state) := by
  have waiting : (wk.setState state).cache.waiting = wk.cache.waiting := by
    unfold Walk.setState
    split <;> rfl
  have counts : (wk.setState state).cache.stats = wk.cache.stats := by
    unfold Walk.setState
    split <;> rfl
  refine ⟨by rw [setState_lqe]; exact h.type, waiting.trans h.waiting, by rw [counts]; exact h.counts, ?_⟩
  simpa using h.sends

theorem Passing.deleteAtLast (h : Passing w part s n wk) :
    Passing w part s n (wk.deleteAtLast cfg index) := by
  unfold Walk.deleteAtLast
  split
  · exact ⟨h.type, h.waiting, h.counts, h.sends⟩
  · exact h

theorem Passing.giveBack (h : Passing w part s n wk) (unsent : wk.sentToL2 = false)
    (hc : cargo wk.lqe.type ≠ .stack) :
    Meets (fun _ => True) (Passing w part s n) (wk.giveBack cfg t) := by
  unfold Walk.giveBack
  rw [meets_bind, Lqe.meets_pop]
  refine ⟨fun _ => trivial, fun c path hp => ?_⟩
  obtain ⟨k, sends, hk⟩ := h.sends
  rw [unsent] at hk
  have same : w.load ({ wk.lqe with path }.push cfg.self) = w.load wk.lqe := by
    cases type : cargo wk.lqe.type with
    | stack => exact (hc type).elim
    | below =>
      have pushed : cargo ({ wk.lqe with path }.push cfg.self).type = .below := type
      rw [w.load_below _ pushed, w.load_below _ type, hp]
      rfl
    | nothing =>
      have pushed : cargo ({ wk.lqe with path }.push cfg.self).type = .nothing := type
      rw [w.load_nothing _ pushed, w.load_nothing _ type]
  refine ⟨h.type, h.waiting, h.counts, k + w.load wk.lqe,
    same ▸ sends.append (toL2Rep_sends hc), ?_⟩
  show k + w.load wk.lqe + 0 ≤ n
  simpa using hk

theorem bypass_sends (w : Weight C) (part : C → Part C) (unsent : wk.sentToL2 = false) :
    Meets (fun _ => True)
      (fun wk' => (∃ core path, wk'.lqe = retried core { wk.lqe with path }) ∧
        wk'.cache.waiting = wk.cache.waiting ∧ wk'.cache.stats.counts = wk.cache.stats.counts ∧
        wk'.sentToL2 = true ∧ wk.lqe.path.tail ≠ [] ∧
          ∃ call, wk'.effects.calls = wk.effects.calls ++ [call] ∧
          Sends w part (w.of wk.lqe.path.tail wk.lqe.serial) [call])
      (wk.bypass cfg t) := by
  unfold bypass
  rw [unsent, if_neg Bool.false_ne_true, meets_bind, Lqe.meets_pop]
  refine ⟨fun _ => trivial, fun c path hp => ?_⟩
  rw [meets_bind]
  refine (addEventToLsu_sends w part cfg t _).mono (fun call h => ?_) fun _ h => h
  have tail : wk.lqe.path.tail = path := by
    rw [show wk.lqe.path = c :: path from hp]
    rfl
  rw [tail]
  exact ⟨⟨call.callee, path, rfl⟩, rfl, rfl, rfl, h.2, call, rfl, h.1⟩

theorem retried_of_ne {core : C} {lqe : Lqe C} (other : lqe.type ≠ .nack) :
    retried core lqe = lqe :=
  if_neg other

theorem isFill_retried {core : C} {lqe : Lqe C} (nack : lqe.type = .nack) :
    IsFill (retried core lqe).type := by
  unfold retried
  rw [if_pos nack]
  exact .inl rfl

theorem Passing.bypass (h : Passing w part s n wk) (hc : cargo wk.lqe.type = .stack) :
    Meets (fun _ => True) (Passing w part s n) (wk.bypass cfg t) := by
  by_cases sent : wk.sentToL2
  · unfold Walk.bypass
    rw [if_pos sent]
    exact h
  · have unsent := Bool.eq_false_iff.mpr sent
    obtain ⟨k, sends, hk⟩ := h.sends
    rw [if_neg sent, w.load_stack _ hc] at hk
    refine (bypass_sends w part unsent).mono (fun wk' h' => ?_) fun _ h => h
    obtain ⟨⟨core, path, lqe⟩, waiting, counts, sent', -, call, calls, one⟩ := h'
    have kept : retried core { wk.lqe with path } = { wk.lqe with path } := retried_of_ne h.type.2
    rw [kept] at lqe
    refine ⟨lqe ▸ h.type, waiting.trans h.waiting, counts.trans h.counts, _,
      calls ▸ sends.append one, ?_⟩
    have tail := w.tail_le wk.lqe.path wk.lqe.serial
    rw [if_pos sent']
    have : w.of wk.lqe.path.tail wk.lqe.serial ≤ w.whole wk.lqe := tail
    omega

theorem Passing.evict (h : Passing w part s n wk) (hc : cargo wk.lqe.type ≠ .stack) :
    Meets (fun _ => True) (Passing w part s n) (wk.evict cfg t index) := by
  unfold Walk.evict
  dsimp only [count_entry]
  have looked := h.count
    (f := fun st => { st with numCoherencyAccess := st.numCoherencyAccess + 1 })
    fun _ => rfl
  cases wk.entry with
  | none => exact looked.deleteAtLast
  | some e =>
    have given := (looked.count (f := fun st => { st with numEvCoherency := st.numEvCoherency + 1 })
      fun _ => rfl).setState .invalid
    dsimp only
    split
    · split
      · exact given
      · rename_i sent
        exact given.giveBack (Bool.eq_false_iff.mpr sent) (by rwa [setState_lqe])
    · exact given.deleteAtLast

theorem Passing.mToX (h : Passing w part s n wk) (hc : cargo wk.lqe.type ≠ .stack) :
    Meets (fun _ => True) (Passing w part s n) (wk.mToX cfg t) := by
  have finish : ∀ wk₁ : Walk C, Passing w part s n wk₁ → wk₁.lqe.type = wk.lqe.type →
      Meets (fun _ => True) (Passing w part s n)
        (if wk₁.sentToL2 then return wk₁ else wk₁.giveBack cfg t) := fun wk₁ h type => by
    split
    · exact h
    · rename_i sent
      exact h.giveBack (Bool.eq_false_iff.mpr sent) (type ▸ hc)
  have looked := h.count
    (f := fun st => { st with numCoherencyAccess := st.numCoherencyAccess + 1 })
    fun _ => rfl
  unfold Walk.mToX
  refine finish _ ?_ ?_
  · dsimp only [count_entry]
    split
    · exact looked
    · split
      · exact looked
      · split
        · exact (looked.count (f := fun st => { st with numEvCoherency := st.numEvCoherency + 1 })
            fun _ => rfl).setState _
        · exact looked.setState _
  · dsimp only [count_entry]
    split
    · rfl
    · split
      · rfl
      · split <;> rw [setState_lqe] <;> rfl

theorem Passing.dirRd (h : Passing w part s n wk) :
    Meets (fun _ => True) (Passing w part s n) (wk.dirRd cfg t index) := by
  unfold Walk.dirRd
  dsimp only [count_entry]
  have looked := h.count
    (f := fun st => { st with numCoherencyAccess := st.numCoherencyAccess + 1 })
    fun _ => rfl
  split
  · exact looked.deleteAtLast
  · split
    · exact looked
    · split
      · trivial
      · have lent := (looked.count
          (f := fun st => { st with numEvCoherency := st.numEvCoherency + 1 })
          fun _ => rfl).setState .exclusive
        obtain ⟨k, sends, hk⟩ := lent.sends
        have evict : cargo EventType.evict ≠ .stack := by decide
        have noNack : EventType.evict ≠ .nack := by decide
        refine ⟨⟨not_isFill_evict, noNack⟩, lent.waiting, lent.counts, _,
          sends.append (toL2Rep_sends evict), ?_⟩
        show k + 0 + 0 ≤ n
        omega

theorem Passing.visit (h : Passing w part s n wk) :
    Meets (fun _ => True) (Passing w part s n) (wk.visit cfg t index) := by
  have looked : ∀ set found, Passing w part s n (wk.look set found) := fun _ _ =>
    ⟨h.type, h.waiting, h.counts, h.sends⟩
  have other : ∀ {type}, wk.lqe.type = type → cargo type ≠ .stack → cargo wk.lqe.type ≠ .stack :=
    fun type => type ▸ id
  unfold Walk.visit
  dsimp only [look]
  split
  · rename_i type
    exact (h.type.2 type).elim
  · rename_i type
    exact (looked _ _).bypass (congrArg cargo type)
  · rename_i type
    exact (looked _ _).evict (other type (by decide))
  · rename_i type
    exact (looked _ _).mToX (other type (by decide))
  · rename_i type
    exact (looked _ _).mToX (other type (by decide))
  · exact (looked _ _).dirRd
  · rename_i type
    exact absurd (.inl type) h.type.1
  · rename_i type
    exact absurd (.inr type) h.type.1
  · trivial

end Walk

section Replies
variable {s : CacheL1 C} {fee : Nat}

structure Replied (w : Weight C) (part : C → Part C) (fee n : Nat) (s : CacheL1 C)
    (r : CacheL1 C × Effects C) : Prop where
  waiting : r.1.waiting = s.waiting
  pays : Pays w part fee n s.stats.counts r.1.stats.counts r.2.calls

theorem evictVictim_sends (cfg : L1Config C) (t set thId : Nat) (victim : L1Entry) :
    Sends w part 0 (Walk.evictVictim cfg t set thId victim) := by
  refine Sends.free fun call hc => ?_
  unfold Walk.evictVictim at hc
  split at hc
  · cases hc
  · obtain rfl := List.mem_singleton.mp hc
    split <;> exact ⟨rfl, by simp [toL2Rep, Lqe.new]⟩

theorem visit_fill_replied (w : Weight C) (part : C → Part C) (fee : Nat) (fill : IsFill lqe.type) :
    Meets (fun _ => True) (fun wk => IsFill wk.lqe.type ∧
      Replied w part fee (w.load lqe) s (wk.cache, wk.effects))
    (Walk.visit cfg t 0 { cache := s, lqe }) := by
  have stack : cargo lqe.type = .stack := by rcases fill with type | type <;> rw [type] <;> rfl
  rw [w.load_stack _ stack]
  have filled : ∀ set tag found setIt, Meets (fun _ => True)
      (fun wk => IsFill wk.lqe.type ∧ Replied w part fee (w.whole lqe) s (wk.cache, wk.effects))
      (Walk.fill cfg t set tag found { cache := s, lqe, setIt }) := by
    intro set tag found setIt
    unfold Walk.fill
    rw [meets_bind, Lqe.meets_pop]
    refine ⟨fun _ => trivial, fun c path hp => ?_⟩
    dsimp only
    split
    · trivial
    · rename_i e he
      rw [meets_bind]
      refine (addEventToLsu_sends w part cfg t _).mono (fun answer h => ⟨fill, ?_⟩) fun _ h => h
      have evicts : Sends w part 0 (if found = none then Walk.evictVictim cfg t set lqe.thId e
        else []) := by
        split
        · exact evictVictim_sends cfg t set lqe.thId e
        · exact .nil
      have sends := evicts.append (h.1.mono (w.whole_pop hp))
      rw [Nat.zero_add] at sends
      split
      · exact ⟨rfl, Pays.of_sends sends rfl⟩
      · exact ⟨rfl, Pays.of_sends sends rfl⟩
  unfold Walk.visit
  rcases fill with type | type
  · simp only [Walk.look, type]
    exact filled _ _ _ _
  · simp only [Walk.look, type]
    exact filled _ _ _ _

theorem visit_nack_replied (w : Weight C) (part : C → Part C) (type : lqe.type = .nack)
    (hn : lqe.path.tail ≠ [] → w.of lqe.path.tail lqe.serial + fee ≤ w.load lqe) :
    Meets (fun _ => True)
      (fun wk => IsFill wk.lqe.type ∧ Replied w part fee (w.load lqe) s (wk.cache, wk.effects))
      (Walk.visit cfg t 0 { cache := s, lqe }) := by
  unfold Walk.visit
  simp only [Walk.look, type]
  refine (Walk.bypass_sends w part ?_).mono (fun wk h => ?_) fun _ h => h
  · rfl
  · obtain ⟨⟨core, path, same⟩, waiting, counts, -, below, call, calls, sends⟩ := h
    have fill : IsFill wk.lqe.type := by
      rw [same]
      exact Walk.isFill_retried type
    exact ⟨fill, waiting, Pays.nack (calls ▸ sends) (hn below) counts⟩

theorem processReply_replied (w : Weight C) (part : C → Part C) (fee : Nat)
    (ok : lqe.type = .nack → lqe.path.tail ≠ [] →
      w.of lqe.path.tail lqe.serial + fee ≤ w.load lqe) :
    Meets (fun _ => True) (Replied w part fee (w.load lqe) s) (processReply cfg t s lqe) := by
  by_cases fill : IsFill lqe.type
  · exact processReply_first (visit_fill_replied w part fee fill)
  · by_cases nack : lqe.type = .nack
    · exact processReply_first (visit_nack_replied w part nack (ok nack))
    · refine (processReply_keep (fun wk index h _ => h.visit)
        (Walk.passing_start w part s ⟨fill, nack⟩) fill).mono (fun r h => ?_) fun _ h => h
      obtain ⟨wk, passing, rfl⟩ := h
      exact ⟨passing.waiting, Pays.of_sends passing.calls passing.counts⟩

end Replies

section Requests
variable {s : CacheL1 C} {fee : Nat} {paid : Finset (Option Nat)}

theorem countAccess_counts (type : EventType) (st : L1Stats) :
    (countAccess type st).counts.numNack = st.counts.numNack ∧
      (countAccess type st).counts.misses = st.counts.misses ∧
      (countAccess type st).counts.accesses = st.counts.accesses + 1 := by
  unfold countAccess
  split
  · refine ⟨rfl, rfl, ?_⟩
    show st.numRdAccess + 1 + st.numWrAccess = st.numRdAccess + st.numWrAccess + 1
    omega
  · exact ⟨rfl, rfl, rfl⟩

theorem countMiss_counts (type : EventType) (st : L1Stats) :
    (countMiss type st).counts.numNack = st.counts.numNack ∧
      (countMiss type st).counts.misses = st.counts.misses + 1 ∧
      (countMiss type st).counts.accesses = st.counts.accesses := by
  unfold countMiss
  split
  · exact ⟨rfl, rfl, rfl⟩
  · refine ⟨rfl, ?_, rfl⟩
    show st.numRdMiss + 1 + st.numWrMiss = st.numRdMiss + st.numWrMiss + 1
    omega

theorem toL2Req_sends (h : w.of (cfg.self :: lqe.path) lqe.serial ≤ n) :
    Sends w part n [toL2Req cfg t (lqe.push cfg.self)] :=
  Sends.one ((w.charge_req_le part rfl).trans h) fun _ => trivial

theorem access_pays (part : C → Part C) (hf : Fee w cfg.self fee paid) : Meets (fun _ => True)
    (fun r => r.1.waiting = s.waiting ∧
      ((r.1.stats.numUpgradeReq ≠ s.stats.numUpgradeReq → lqe.serial ∈ paid) →
        Pays w part fee (w.whole lqe) s.stats.counts r.1.stats.counts r.2))
    (access cfg t s lqe) := by
  obtain ⟨nacks, misses, accesses⟩ := countAccess_counts lqe.type s.stats
  have answered : ∀ {s' : CacheL1 C}, s'.waiting = s.waiting →
    s'.stats = countAccess lqe.type s.stats →
      Meets (fun _ => True) (fun r => r.1.waiting = s.waiting ∧
        ((r.1.stats.numUpgradeReq ≠ s.stats.numUpgradeReq → lqe.serial ∈ paid) →
          Pays w part fee (w.whole lqe) s.stats.counts r.1.stats.counts r.2))
        (addEventToLsu cfg t lqe >>= fun answer => (return (s', [answer]) : Except Abort _)) := by
    intro s' waiting stats
    rw [meets_bind]
    refine (addEventToLsu_sends w part cfg t lqe).mono (fun answer h => ⟨waiting, fun _ => ?_⟩)
      fun _ h => h
    exact Pays.answer h.1 (stats ▸ nacks) (stats ▸ misses) (stats ▸ accesses)
  unfold access
  dsimp only
  split
  · exact answered rfl rfl
  · split
    · exact answered rfl rfl
    · refine ⟨rfl, fun ok => ?_⟩
      have upgraded : (countAccess lqe.type s.stats).numUpgradeReq + 1 ≠ s.stats.numUpgradeReq := by
        unfold countAccess
        split <;> simp
      exact Pays.answer (toL2Req_sends (hf.free _ _ (ok upgraded))) nacks misses accesses
    · refine ⟨rfl, fun _ => ?_⟩
      obtain ⟨nacks', misses', accesses'⟩ :=
        countMiss_counts lqe.type (countAccess lqe.type s.stats)
      exact Pays.miss (toL2Req_sends (hf.push _ _)) (nacks'.trans nacks)
        (misses'.trans (by rw [misses])) (accesses'.trans accesses)

structure Prefetches (w : Weight C) (part : C → Part C) (s : CacheL1 C)
    (r : CacheL1 C × List (Call C)) : Prop where
  waiting : r.1.waiting = s.waiting
  counts : r.1.stats.counts = s.stats.counts
  upgrades : r.1.stats.numUpgradeReq = s.stats.numUpgradeReq
  sends : Sends w part 0 r.2

theorem sendPrefetch_prefetches (part : C → Part C) (t : Nat) (fresh : w.of [cfg.self] none = 0)
    (s : CacheL1 C) (addr thId : Nat) :
    Prefetches w part s (s.sendPrefetch cfg t addr thId) := by
  have sends : Sends w part 0 [toL2Req cfg t (Lqe.new cfg.self .read addr thId)] :=
    Sends.one ((w.charge_req_le part rfl).trans fresh.le) fun _ => trivial
  unfold sendPrefetch
  dsimp only
  split
  · exact ⟨rfl, rfl, rfl, sends⟩
  · exact ⟨rfl, rfl, rfl, sends⟩

theorem doPrefetch_prefetches (part : C → Part C) (t : Nat) (fresh : w.of [cfg.self] none = 0)
    (s : CacheL1 C) (lqe : Lqe C) :
    Prefetches w part s (s.doPrefetch cfg t lqe) := by
  have marked : ∀ {s₁ s₂ : CacheL1 C} {addr : Nat} {r : CacheL1 C × List (Call C)},
      s₁.markPrefetch addr = some s₂ → Prefetches w part s₂ r → Prefetches w part s₁ r := by
    intro s₁ s₂ addr r h prefetches
    obtain ⟨idx, -, rfl⟩ := Option.map_eq_some_iff.mp h
    exact ⟨prefetches.waiting, prefetches.counts, prefetches.upgrades, prefetches.sends⟩
  have still : ∀ s₁ : CacheL1 C, Prefetches w part s₁ (s₁, []) := fun _ => ⟨rfl, rfl, rfl, .nil⟩
  have sent := sendPrefetch_prefetches part t fresh
  unfold doPrefetch
  dsimp only
  split
  on_goal 1 =>
    rename_i h
    refine marked h ?_
  all_goals
    split
    · exact sent _ _ _
    · split
      · rename_i h
        exact marked h (still _)
      · split
        · exact sent _ _ _
        · exact still _

theorem processRequest_pays (part : C → Part C) (hf : Fee w cfg.self fee paid)
    (fresh : w.of [cfg.self] none = 0) :
    Meets (fun _ => True) (fun r => r.1.waiting = s.waiting ∧
      ((r.1.stats.numUpgradeReq ≠ s.stats.numUpgradeReq → lqe.serial ∈ paid) →
        Pays w part fee (w.whole lqe) s.stats.counts r.1.stats.counts r.2.calls))
    (processRequest cfg t s lqe) := by
  unfold processRequest
  rw [meets_bind]
  refine (access_pays part hf).mono (fun r h => ?_) fun _ h => h
  obtain ⟨waiting, pays⟩ := h
  dsimp only
  split
  · have prefetches := doPrefetch_prefetches part t fresh r.1 lqe
    refine ⟨prefetches.waiting.trans waiting, fun ok => ?_⟩
    rw [prefetches.upgrades] at ok
    exact (pays ok).trans (Pays.of_sends prefetches.sends prefetches.counts)
  · refine ⟨waiting, fun ok => ?_⟩
    rw [List.append_nil]
    exact pays ok

theorem processRequests_pays (part : C → Part C) (hf : Fee w cfg.self fee paid)
    (fresh : w.of [cfg.self] none = 0) (requests : List (Lqe C))
    (ok : ∀ serial ∈ upgrades cfg t s requests, serial ∈ paid) :
    Meets (fun _ => True) (fun r => r.1.waiting = s.waiting ∧
      Pays w part fee (weigh w.whole requests) s.stats.counts r.1.stats.counts r.2.calls)
    (processRequests cfg t s requests) := by
  induction requests generalizing s with
  | nil => exact ⟨rfl, Pays.of_sends .nil rfl⟩
  | cons lqe rest ih =>
    have one := @processRequest_pays _ w cfg t lqe s fee paid part hf fresh
    unfold processRequests
    unfold upgrades at ok
    cases hr : processRequest cfg t s lqe with
    | error a => trivial
    | ok r =>
      rw [hr] at one ok
      obtain ⟨waiting, pays⟩ := one
      have head := pays fun changed => ok lqe.serial (by simp [changed])
      have tail := @ih r.1 fun serial mem => ok serial (List.mem_append_right _ mem)
      show Meets _ _ (processRequests cfg t r.1 rest >>= _)
      rw [meets_bind]
      refine tail.mono (fun r' h => ⟨h.1.trans waiting, ?_⟩) fun _ h => h
      exact head.trans h.2

end Requests

section Process
variable {s : CacheL1 C} {fee : Nat} {paid : Finset (Option Nat)}

theorem inL1_addReq (s : CacheL1 C) (t : Nat) (lqe : Lqe C) :
    w.inL1 cfg (s.addReqEvent t lqe) = w.inL1 cfg s + w.whole lqe := Weight.inCache_addReq t lqe

theorem inL1_addRep (s : CacheL1 C) (t : Nat) (lqe : Lqe C) :
    w.inL1 cfg (s.addRepEvent t lqe) = w.inL1 cfg s + w.load lqe := Weight.inCache_addRep t lqe

theorem inL1_takeEvents (cfg : L1Config C) (t : Nat) (s : CacheL1 C) :
    w.inL1 cfg (s.takeEvents cfg t) = w.inL1 cfg s :=
  Weight.inCache_take t fun _ => Nat.mod_lt _ cfg.numBanks_pos

def replies (s : CacheL1 C) : List (Lqe C) := waitingReplies s.repEvent s.repQ

theorem replies_congr {s s' : CacheL1 C} (h : s'.waiting = s.waiting) : s'.replies = s.replies := by
  simp only [waiting, Prod.mk.injEq] at h
  rw [replies, replies, h.2.1, h.2.2.1]

theorem mem_replies_takeEvents {t : Nat} {s : CacheL1 C} {lqe : Lqe C} :
    lqe ∈ (s.takeEvents cfg t).replies ↔ lqe ∈ s.replies := mem_waitingReplies_take

theorem mem_replies_addRep {t : Nat} {s : CacheL1 C} {lqe lqe' : Lqe C} :
    lqe ∈ (s.addRepEvent t lqe').replies ↔ lqe = lqe' ∨ lqe ∈ s.replies := mem_waitingReplies_insert

/-- A step takes elements that weigh `n` out of the cache. -/
structure Stepped (w : Weight C) (part : C → Part C) (cfg : L1Config C) (fee : Nat)
    (s s' : CacheL1 C) (calls : List (Call C)) : Prop where
  pays : ∃ n, w.inL1 cfg s' + n = w.inL1 cfg s ∧
    Pays w part fee n s.stats.counts s'.stats.counts calls
  replies : ∀ lqe ∈ s'.replies, lqe ∈ s.replies

theorem serve_stepped_of (part : C → Part C) (hf : Fee w cfg.self fee paid)
    (fresh : w.of [cfg.self] none = 0)
    (hr : ∀ lqe ∈ s.repQ.head?, ∀ s' : CacheL1 C,
      Meets (fun _ => True) (Replied w part fee (w.load lqe) s') (processReply cfg t s' lqe))
    (hu : s.repQ = [] → ∀ serial ∈ upgrades cfg t { s with reqQs := fun bank => (s.reqQs bank).tail }
      (s.frontRequests cfg), serial ∈ paid) :
    Meets (fun _ => True) (fun r => Stepped w part cfg fee s r.1 r.2.calls) (serve cfg t s) := by
  unfold serve
  split
  · rename_i lqe repQ hq
    rw [hq] at hr
    refine (hr lqe rfl { s with repQ }).mono
      (fun r h => ⟨⟨w.load lqe, ?_, h.pays⟩, fun other mem => ?_⟩) fun _ h => h
    · rw [inL1_congr h.waiting, Weight.inL1, Weight.inL1, hq, Weight.inCache_cons]
    · rw [replies_congr h.waiting] at mem
      rw [replies, hq]
      exact List.mem_append.mpr ((List.mem_append.mp mem).imp_right (List.mem_cons_of_mem lqe))
  · rename_i hq
    refine (processRequests_pays part hf fresh _ (hu hq)).mono
      (fun r h => ⟨⟨_, ?_, h.2⟩, fun other mem => ?_⟩) fun _ h => h
    · rw [inL1_congr h.1]
      exact Weight.inCache_heads.symm
    · rw [replies_congr h.1] at mem
      exact mem

theorem serve_stepped (part : C → Part C) (hf : Fee w cfg.self fee paid)
    (fresh : w.of [cfg.self] none = 0)
    (hr : ∀ lqe ∈ s.repQ.head?, lqe.type = .nack →
      lqe.serial ∉ paid ∧ lqe.path.head? = some cfg.self)
    (hu : s.repQ = [] → ∀ serial ∈ upgrades cfg t { s with reqQs := fun bank => (s.reqQs bank).tail }
      (s.frontRequests cfg), serial ∈ paid) :
    Meets (fun _ => True) (fun r => Stepped w part cfg fee s r.1 r.2.calls) (serve cfg t s) := by
  refine serve_stepped_of part hf fresh (fun lqe next s' => ?_) hu
  refine processReply_replied w part fee fun nack below => ?_
  obtain ⟨unpaid, head⟩ := hr lqe next nack
  obtain ⟨path, hp⟩ := List.head?_eq_some_iff.mp head
  rw [hp] at below ⊢
  rw [w.load_stack _ (by rw [nack]; rfl), Weight.whole, hp]
  exact hf.back path below _ unpaid

theorem processEvent_stepped (part : C → Part C) (hf : Fee w cfg.self fee paid)
    (fresh : w.of [cfg.self] none = 0)
    (hr : ∀ lqe ∈ (s.takeEvents cfg t).repQ.head?, lqe.type = .nack →
      lqe.serial ∉ paid ∧ lqe.path.head? = some cfg.self)
    (hu : (s.takeEvents cfg t).repQ = [] → ∀ serial ∈ upgrades cfg t
      { s.takeEvents cfg t with reqQs := fun bank => ((s.takeEvents cfg t).reqQs bank).tail }
      ((s.takeEvents cfg t).frontRequests cfg), serial ∈ paid) :
    Meets (fun _ => True) (fun r => Stepped w part cfg fee s r.1 r.2.1.calls)
      (processEvent cfg t s) := by
  unfold processEvent
  rw [meets_bind]
  refine (serve_stepped part hf fresh hr hu).mono (fun r h => ⟨?_, fun lqe mem => ?_⟩) fun _ h => h
  · obtain ⟨n, weighs, pays⟩ := h.pays
    exact ⟨n, weighs.trans (inL1_takeEvents cfg t s), pays⟩
  · exact mem_replies_takeEvents.mp (h.replies lqe mem)

end Process
end McSim.CacheL1
