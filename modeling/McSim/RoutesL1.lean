import McSim.Routes
import McSim.TrafficL1

/-! Where a first-level cache sends its elements. -/

namespace McSim.CacheL1

open Contract Routes

variable {C : Type} {r : Routes C} {cfg : L1Config C} {t index : Nat} {lqe : Lqe C}

/-- Calls that fit their callees. Only the cores may get theirs at once. -/
def Posted (r : Routes C) (cfg : L1Config C) (t : Nat) (calls : List (Call C)) : Prop :=
  ∀ call ∈ calls, r.Fits call ∧ (r.part call.callee = .core ∨ call.time = t + cfg.l1ToL2T)

section
variable {call : Call C} {a b : List (Call C)}

theorem Posted.nil : Posted r cfg t [] := fun _ h => by cases h

theorem Posted.one (fits : r.Fits call)
    (time : r.part call.callee = .core ∨ call.time = t + cfg.l1ToL2T) :
    Posted r cfg t [call] := fun _ hc => List.mem_singleton.mp hc ▸ ⟨fits, time⟩

theorem Posted.append (ha : Posted r cfg t a) (hb : Posted r cfg t b) : Posted r cfg t (a ++ b) :=
  fun call hc => (List.mem_append.mp hc).elim (ha call) (hb call)

end

theorem addEventToLsu_sent (type : lqe.type ∈ [EventType.read, .write, .nack, .rdBypass])
    (demand : r.Demand lqe.serial lqe.path) :
    Meets (fun _ => True) (fun call => Posted r cfg t [call]) (addEventToLsu cfg t lqe) := by
  obtain ⟨n, core, serial, issued, hcore, path⟩ := demand
  unfold addEventToLsu
  rw [meets_bind, Lqe.meets_top]
  refine ⟨fun _ => trivial, fun c below hp => ?_⟩
  obtain ⟨rfl, -⟩ := List.cons.inj (path.symm.trans hp)
  exact .one (fits_core hcore ⟨type, n, serial, issued, path⟩) (.inl hcore)

section Walk

variable (laid : r.Laid) {c : C} {ways : Nat} (hc : r.part c = .cachel1 cfg ways)
include laid hc

theorem isL1Of_self : r.IsL1Of cfg.cachel2 cfg.self := by
  obtain ⟨rfl, -⟩ := laid.cachel1 c cfg ways hc
  exact ⟨cfg, ways, hc, rfl⟩

theorem toL2Rep_sent (h : r.L2Reply cfg.cachel2 lqe) : Posted r cfg t [toL2Rep cfg t lqe] :=
  .one (fits_l2 (laid.cachel1 c cfg ways hc).2 rfl h) (.inr rfl)

theorem toL2Req_sent (h : r.L2Request cfg.cachel2 lqe) : Posted r cfg t [toL2Req cfg t lqe] :=
  .one (fits_l2_req (laid.cachel1 c cfg ways hc).2 rfl h) (.inr rfl)

theorem l2Reply_evict {below : List C} (type : lqe.type = .evict ∨ lqe.type = .evictNd)
    (path : lqe.path = cfg.self :: below) : r.L2Reply cfg.cachel2 lqe := by
  have top : ∃ l1 below, lqe.path = l1 :: below ∧ r.IsL1Of cfg.cachel2 l1 :=
    ⟨_, below, path, isL1Of_self laid hc⟩
  unfold L2Reply
  rcases type with type | type <;> rw [type] <;> exact top

namespace Walk

variable {s : CacheL1 C} {w : Walk C}

/-- A walk without a fill: what it has sent is well sent, and what it has not sent is as it came. -/
structure Guided (r : Routes C) (cfg : L1Config C) (t : Nat) (s : CacheL1 C) (w : Walk C) :
    Prop where
  waiting : w.cache.waiting = s.waiting
  sent : Posted r cfg t w.effects.calls
  reply : w.sentToL2 = false → r.L1Reply cfg.cachel2 w.lqe

omit laid hc

theorem Guided.count (h : Guided r cfg t s w) (f : L1Stats → L1Stats) :
    Guided r cfg t s (w.count f) :=
  ⟨h.waiting, h.sent, h.reply⟩

theorem Guided.setState (h : Guided r cfg t s w) (state : CoherenceState) :
    Guided r cfg t s (w.setState state) := by
  unfold Walk.setState
  split
  · exact h
  · exact ⟨h.waiting, h.sent, h.reply⟩

theorem Guided.deleteAtLast (h : Guided r cfg t s w) :
    Guided r cfg t s (w.deleteAtLast cfg index) := by
  unfold Walk.deleteAtLast
  split
  · exact ⟨h.waiting, h.sent, h.reply⟩
  · exact h

include laid hc

theorem Guided.giveBack (h : Guided r cfg t s w) (unsent : w.sentToL2 = false)
    (type : w.lqe.type ∈ [EventType.evict, .mToS, .mToM]) :
    Meets (fun _ => True) (Guided r cfg t s) (w.giveBack cfg t) := by
  have reply := h.reply unsent
  unfold Walk.giveBack
  rw [meets_bind, Lqe.meets_pop]
  refine ⟨fun _ => trivial,
    fun top below hp => ⟨h.waiting, h.sent.append (toL2Rep_sent laid hc ?_), nofun⟩⟩
  have back : ({ w.lqe with path := below }.push cfg.self).path = cfg.self :: below := rfl
  have lent : w.lqe.type = .mToS ∨ w.lqe.type = .mToM → r.Lent cfg.cachel2 w.lqe.serial below := by
    intro type
    unfold L1Reply at reply
    rcases type with type | type <;>
    · rw [type] at reply
      obtain ⟨top', below', hp', lent⟩ := reply
      obtain ⟨-, rfl⟩ := List.cons.inj (hp.symm.trans hp')
      exact lent
  simp only [List.mem_cons, List.not_mem_nil, or_false] at type
  rcases type with type | type | type
  · exact l2Reply_evict laid hc (.inl type) back
  all_goals
    unfold L2Reply
    have same : ({ w.lqe with path := below }.push cfg.self).type = w.lqe.type := rfl
    rw [same, type]
    exact ⟨_, _, back, lent (by simp [type])⟩

omit laid hc in
theorem Guided.bypass (h : Guided r cfg t s w)
    (type : w.lqe.type = .nack ∨ w.lqe.type = .rdBypass) :
    Meets (fun _ => True) (Guided r cfg t s) (w.bypass cfg t) := by
  unfold Walk.bypass
  split
  · exact h
  · rename_i unsent
    have reply := h.reply (Bool.eq_false_iff.mpr unsent)
    rw [meets_bind, Lqe.meets_pop]
    refine ⟨fun _ => trivial, fun top below hp => ?_⟩
    have demand : r.Demand w.lqe.serial below := by
      unfold L1Reply at reply
      rcases type with type | type <;>
      · rw [type] at reply
        obtain ⟨top', below', hp', demand⟩ := reply
        obtain ⟨-, rfl⟩ := List.cons.inj (hp.symm.trans hp')
        exact demand
    rw [meets_bind]
    refine (@addEventToLsu_sent _ r cfg t { w.lqe with path := below } ?_ demand).mono
      (fun call sent => ⟨h.waiting, h.sent.append sent, nofun⟩) fun _ h => h
    rcases type with type | type <;> simp [type]

theorem Guided.evict (h : Guided r cfg t s w) (type : w.lqe.type = .evict) :
    Meets (fun _ => True) (Guided r cfg t s) (w.evict cfg t index) := by
  have looked := h.count fun st => { st with numCoherencyAccess := st.numCoherencyAccess + 1 }
  unfold Walk.evict
  dsimp only [count_entry]
  split
  · exact looked.deleteAtLast
  · have given := (looked.count fun st =>
      { st with numEvCoherency := st.numEvCoherency + 1 }).setState .invalid
    split
    · split
      · exact given
      · rename_i sent
        exact given.giveBack laid hc (Bool.eq_false_iff.mpr sent)
          (by rw [setState_lqe]; simp [Walk.count, type])
    · exact given.deleteAtLast

theorem Guided.mToX (h : Guided r cfg t s w) (type : w.lqe.type = .mToS ∨ w.lqe.type = .mToM) :
    Meets (fun _ => True) (Guided r cfg t s) (w.mToX cfg t) := by
  have finish : ∀ w₁ : Walk C, Guided r cfg t s w₁ → w₁.lqe.type = w.lqe.type →
      Meets (fun _ => True) (Guided r cfg t s)
        (if w₁.sentToL2 then return w₁ else w₁.giveBack cfg t) := by
    intro w₁ guided same
    split
    · exact guided
    · rename_i sent
      refine guided.giveBack laid hc (Bool.eq_false_iff.mpr sent) ?_
      rcases type with type | type <;> simp [same, type]
  have looked := h.count fun st => { st with numCoherencyAccess := st.numCoherencyAccess + 1 }
  unfold Walk.mToX
  refine finish _ ?_ ?_
  · dsimp only [count_entry]
    split
    · exact looked
    · split
      · exact looked
      · split
        · exact (looked.count fun st =>
            { st with numEvCoherency := st.numEvCoherency + 1 }).setState _
        · exact looked.setState _
  · dsimp only [count_entry]
    split
    · rfl
    · split
      · rfl
      · split <;> rw [setState_lqe] <;> rfl

theorem Guided.dirRd (h : Guided r cfg t s w) :
    Meets (fun _ => True) (Guided r cfg t s) (w.dirRd cfg t index) := by
  have looked := h.count fun st => { st with numCoherencyAccess := st.numCoherencyAccess + 1 }
  unfold Walk.dirRd
  dsimp only [count_entry]
  split
  · exact looked.deleteAtLast
  · split
    · exact looked
    · split
      · trivial
      · have lent := (looked.count fun st =>
          { st with numEvCoherency := st.numEvCoherency + 1 }).setState
          .exclusive
        exact ⟨lent.waiting, lent.sent.append
          (toL2Rep_sent laid hc (l2Reply_evict laid hc (.inl rfl) rfl)), nofun⟩

theorem Guided.visit (h : Guided r cfg t s w) (no : ¬ IsFill w.lqe.type) :
    Meets (fun _ => True) (Guided r cfg t s) (w.visit cfg t index) := by
  have looked : ∀ set found, Guided r cfg t s (w.look set found) :=
    fun _ _ => ⟨h.waiting, h.sent, h.reply⟩
  unfold Walk.visit
  dsimp only [look]
  split
  · rename_i type
    exact ((looked _ _).count _).bypass (.inl type)
  · rename_i type
    exact (looked _ _).bypass (.inr type)
  · rename_i type
    exact (looked _ _).evict laid hc type
  · rename_i type
    exact (looked _ _).mToX laid hc (.inl type)
  · rename_i type
    exact (looked _ _).mToX laid hc (.inr type)
  · exact (looked _ _).dirRd laid hc
  · rename_i type
    exact absurd (.inl type) no
  · rename_i type
    exact absurd (.inr type) no
  · trivial

end Walk

variable {s : CacheL1 C}

theorem evictVictim_sent (set thId : Nat) (victim : L1Entry) :
    Posted r cfg t (Walk.evictVictim cfg t set thId victim) := by
  unfold Walk.evictVictim
  split
  · exact .nil
  · refine toL2Rep_sent laid hc (l2Reply_evict laid hc ?_ rfl)
    show (if _ then EventType.evict else .evictNd) = .evict ∨
      (if _ then EventType.evict else .evictNd) = .evictNd
    split
    · exact .inl rfl
    · exact .inr rfl

theorem visit_fill_sent (fill : IsFill lqe.type) (reply : r.L1Reply cfg.cachel2 lqe) :
    Meets (fun _ => True)
      (fun w => IsFill w.lqe.type ∧ w.cache.waiting = s.waiting ∧ Posted r cfg t w.effects.calls)
      (Walk.visit cfg t 0 { cache := s, lqe }) := by
  have filled : ∀ set tag found setIt, Meets (fun _ => True)
      (fun w => IsFill w.lqe.type ∧ w.cache.waiting = s.waiting ∧ Posted r cfg t w.effects.calls)
      (Walk.fill cfg t set tag found { cache := s, lqe, setIt }) := by
    intro set tag found setIt
    unfold Walk.fill
    rw [meets_bind, Lqe.meets_pop]
    refine ⟨fun _ => trivial, fun c below hp => ?_⟩
    have demand : r.Demand lqe.serial below := by
      unfold L1Reply at reply
      rcases fill with type | type <;>
      · rw [type] at reply
        obtain ⟨c', below', hp', demand⟩ := reply
        obtain ⟨-, rfl⟩ := List.cons.inj (hp.symm.trans hp')
        exact demand
    dsimp only
    split
    · trivial
    · rename_i e he
      rw [meets_bind]
      have answer : lqe.type ∈ [EventType.read, .write, .nack, .rdBypass] := by
        rcases fill with type | type <;> simp [type]
      refine (@addEventToLsu_sent _ r cfg t { lqe with path := below } answer demand).mono
        (fun call sent => ⟨fill, ?_⟩) fun _ h => h
      have evicts : Posted r cfg t (if found = none then Walk.evictVictim cfg t set lqe.thId e
        else []) := by
        split
        · exact evictVictim_sent laid hc set lqe.thId e
        · exact .nil
      split
      · exact ⟨rfl, evicts.append sent⟩
      · exact ⟨rfl, evicts.append sent⟩
  unfold Walk.visit
  rcases fill with type | type
  · simp only [Walk.look, type]
    exact filled _ _ _ _
  · simp only [Walk.look, type]
    exact filled _ _ _ _

theorem processReply_sent (reply : r.L1Reply cfg.cachel2 lqe) : Meets (fun _ => True)
    (fun p => p.1.waiting = s.waiting ∧ Posted r cfg t p.2.calls) (processReply cfg t s lqe) := by
  by_cases fill : IsFill lqe.type
  · exact processReply_first (visit_fill_sent laid hc fill reply)
  · have start : Walk.Guided r cfg t s { cache := s, lqe } := ⟨rfl, .nil, fun _ => reply⟩
    refine (processReply_keep (fun w index guided no => guided.visit laid hc no) start fill).mono
      (fun p h => ?_) fun _ h => h
    obtain ⟨w, guided, rfl⟩ := h
    exact ⟨guided.waiting, guided.sent⟩

theorem access_sent (request : r.L1Request lqe) : Meets (fun _ => True)
    (fun p => p.1.waiting = s.waiting ∧ Posted r cfg t p.2) (access cfg t s lqe) := by
  have answer : lqe.type ∈ [EventType.read, .write, .nack, .rdBypass] := by
    rcases request.1 with type | type <;> simp [type]
  have answered : ∀ {s' : CacheL1 C}, s'.waiting = s.waiting → Meets (fun _ => True)
      (fun p => p.1.waiting = s.waiting ∧ Posted r cfg t p.2)
      (addEventToLsu cfg t lqe >>= fun answer => (return (s', [answer]) : Except Abort _)) := by
    intro s' waiting
    rw [meets_bind]
    exact (addEventToLsu_sent answer request.2).mono (fun call sent => ⟨waiting, sent⟩) fun _ h => h
  have missed : Posted r cfg t [toL2Req cfg t (lqe.push cfg.self)] := by
    refine toL2Req_sent laid hc ⟨?_, cfg.self, lqe.path, rfl, isL1Of_self laid hc, .inl request.2⟩
    exact request.1.imp_right fun type => ⟨type, request.2.serial⟩
  unfold access
  dsimp only
  split
  · exact answered rfl
  · split
    · exact answered rfl
    · exact ⟨rfl, missed⟩
    · exact ⟨rfl, missed⟩

theorem doPrefetch_sent (s : CacheL1 C) (lqe : Lqe C) :
    (s.doPrefetch cfg t lqe).1.waiting = s.waiting ∧ Posted r cfg t (s.doPrefetch cfg t lqe).2 := by
  have sent : ∀ (s₁ : CacheL1 C) (addr thId : Nat), (s₁.sendPrefetch cfg t addr thId).1.waiting =
    s₁.waiting ∧
      Posted r cfg t (s₁.sendPrefetch cfg t addr thId).2 := fun s₁ addr thId =>
    ⟨rfl, toL2Req_sent laid hc ⟨.inl rfl, cfg.self, [], rfl, isL1Of_self laid hc, .inr ⟨rfl, rfl⟩⟩⟩
  have still : ∀ s₁ : CacheL1 C, s₁.waiting = s₁.waiting ∧ Posted r cfg t [] := fun _ => ⟨rfl, .nil⟩
  have marked : ∀ {s₁ s₂ : CacheL1 C} {addr : Nat} {p : CacheL1 C × List (Call C)},
      s₁.markPrefetch addr = some s₂ → p.1.waiting = s₂.waiting ∧ Posted r cfg t p.2 →
      p.1.waiting = s₁.waiting ∧ Posted r cfg t p.2 := by
    intro s₁ s₂ addr p h after
    obtain ⟨idx, -, rfl⟩ := Option.map_eq_some_iff.mp h
    exact after
  unfold doPrefetch
  dsimp only
  split
  on_goal 1 =>
    rename_i h
    refine marked h ?_
  all_goals
    split
    · exact sent _ _ _
    · split
      · rename_i h
        exact marked h (still _)
      · split
        · exact sent _ _ _
        · exact still _

theorem processRequest_sent (request : r.L1Request lqe) : Meets (fun _ => True)
    (fun p => p.1.waiting = s.waiting ∧ Posted r cfg t p.2.calls) (processRequest cfg t s lqe) := by
  unfold processRequest
  rw [meets_bind]
  refine (access_sent laid hc request).mono (fun p h => ?_) fun _ h => h
  dsimp only
  split
  · obtain ⟨waiting, sent⟩ := doPrefetch_sent (t := t) laid hc p.1 lqe
    exact ⟨waiting.trans h.1, h.2.append sent⟩
  · exact ⟨h.1, h.2.append .nil⟩

theorem processRequests_sent (requests : List (Lqe C)) (all : ∀ lqe ∈ requests, r.L1Request lqe) :
    Meets (fun _ => True) (fun p => p.1.waiting = s.waiting ∧ Posted r cfg t p.2.calls)
      (processRequests cfg t s requests) := by
  induction requests generalizing s with
  | nil => exact ⟨rfl, .nil⟩
  | cons lqe rest ih =>
    unfold processRequests
    rw [meets_bind]
    refine (processRequest_sent laid hc (all lqe List.mem_cons_self)).mono (fun p h => ?_)
      fun _ h => h
    dsimp only
    rw [meets_bind]
    refine (ih fun other mem => all other (List.mem_cons_of_mem lqe mem)).mono (fun p' h' => ?_)
      fun _ h => h
    exact ⟨h'.1.trans h.1, h.2.append h'.2⟩

omit laid hc in
theorem orderly_congr {s s' : CacheL1 C} (h : s'.waiting = s.waiting) (orderly : Orderly r cfg s) :
    Orderly r cfg s' := by
  simp only [waiting, Prod.mk.injEq] at h
  obtain ⟨req, rep, repQ, reqQs⟩ := h
  rw [Orderly, req, rep, repQ, reqQs]
  exact orderly

theorem processEvent_posted (h : Orderly r cfg s) : Meets (fun _ => True)
    (fun p => Orderly r cfg p.1 ∧ Posted r cfg t p.2.1.calls) (processEvent cfg t s) := by
  have taken : Orderly r cfg (s.takeEvents cfg t) := h.take t _
  unfold processEvent
  rw [meets_bind]
  suffices served : Meets (fun _ => True) (fun p => Orderly r cfg p.1 ∧ Posted r cfg t p.2.calls)
      (serve cfg t (s.takeEvents cfg t)) from served.mono (fun _ h => h) fun _ h => h
  unfold serve
  split
  · rename_i lqe repQ hq
    unfold Orderly at taken
    rw [hq] at taken
    obtain ⟨reply, rest⟩ := taken.uncons
    exact (processReply_sent (s := { s.takeEvents cfg t with repQ }) laid hc reply).mono
      (fun p sent => ⟨orderly_congr sent.1 rest, sent.2⟩) fun _ h => h
  · obtain ⟨requests, rest⟩ := taken.heads cfg.numBanks
    exact (processRequests_sent laid hc _ requests).mono
      (fun p sent => ⟨orderly_congr sent.1 rest, sent.2⟩) fun _ h => h

theorem processEvent_sent (h : Orderly r cfg s) : Meets (fun _ => True)
    (fun p => Orderly r cfg p.1 ∧ Sent r p.2.1.calls) (processEvent cfg t s) :=
  (processEvent_posted laid hc h).mono (fun _ h => ⟨h.1, fun call mem => (h.2 call mem).1⟩)
  fun _ h => h

end Walk
end McSim.CacheL1
