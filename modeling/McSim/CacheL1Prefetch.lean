import McSim.CacheL1DirRd
import McSim.Lib.Inbox
import McSim.Lib.Rotation

/-! The prefetches of a first-level cache.
`do_prefetch` remembers the lines that it asked for last, so as not to ask for one of them again. -/

namespace McSim.CacheL1

open Contract Rotation

variable {C : Type} {cfg : L1Config C} {t index : Nat} {lqe : Lqe C} {s : CacheL1 C}
  {lines : List Nat}

section
variable [DecidableEq C]

/-- A read that the cache sends to the second level on its own behalf -/
def isPrefetch (cfg : L1Config C) (call : Call C) : Bool :=
  call.callee = cfg.cachel2 ∧ call.kind = .req ∧ call.lqe.path = [cfg.self]

def prefetched (cfg : L1Config C) (log : List (Call C)) : List Nat :=
  (log.filter (isPrefetch cfg)).map (·.lqe.address)

theorem prefetched_append (a b : List (Call C)) :
    prefetched cfg (a ++ b) = prefetched cfg a ++ prefetched cfg b := by
  rw [prefetched, List.filter_append, List.map_append]
  rfl

theorem prefetched_other {call : Call C} (other : isPrefetch cfg call = false) :
    prefetched cfg [call] = [] := by
  simp [prefetched, other]

theorem prefetched_rep (t : Nat) (lqe : Lqe C) : prefetched cfg [toL2Rep cfg t lqe] = [] :=
  prefetched_other (by simp [isPrefetch, toL2Rep])

theorem prefetched_answer (wired : cfg.cachel2 ≠ cfg.self) :
    Meets (fun _ => True) (fun call => prefetched cfg [call] = []) (addEventToLsu cfg t lqe) := by
  unfold addEventToLsu
  rw [meets_bind, Lqe.meets_top]
  refine ⟨fun _ => trivial, fun c below path => ?_⟩
  refine prefetched_other (decide_eq_false ?_)
  rintro ⟨callee, -, own⟩
  rw [path] at own
  exact wired (callee.symm.trans (List.cons.inj own).1)

end

def table (s : CacheL1 C) :
    List (Nat × Lqe C) × (Nat → List (Lqe C)) × List PrefetchEntry × Nat × Nat × Nat :=
  (s.reqEvent, s.reqQs, s.pres, s.oldestPreEntryIdx, s.stats.numPrefetchRequests,
    s.stats.numPrefetchHits)

section
variable [DecidableEq C]

namespace Walk

variable {w : Walk C}

structure Quiet (cfg : L1Config C) (s : CacheL1 C) (w : Walk C) : Prop where
  table : w.cache.table = s.table
  calls : prefetched cfg w.effects.calls = []

theorem Quiet.count (h : Quiet cfg s w) {f : L1Stats → L1Stats}
    (same : ∀ st, (f st).numPrefetchRequests = st.numPrefetchRequests ∧
      (f st).numPrefetchHits = st.numPrefetchHits) : Quiet cfg s (w.count f) := by
  refine ⟨Eq.trans ?_ h.table, h.calls⟩
  unfold CacheL1.table Walk.count
  rw [(same _).1, (same _).2]

theorem Quiet.setState (h : Quiet cfg s w) (state : CoherenceState) :
    Quiet cfg s (w.setState state) := by
  unfold Walk.setState
  split
  · exact h
  · exact ⟨h.table, h.calls⟩

theorem Quiet.deleteAtLast (h : Quiet cfg s w) : Quiet cfg s (w.deleteAtLast cfg index) := by
  unfold Walk.deleteAtLast
  split
  · exact ⟨h.table, h.calls⟩
  · exact h

theorem Quiet.call (h : Quiet cfg s w) {call : Call C} (other : prefetched cfg [call] = [])
    (lqe : Lqe C) :
    Quiet cfg s (({ w with lqe, sentToL2 := true } : Walk C).call call) := by
  refine ⟨h.table, ?_⟩
  show prefetched cfg (w.effects.calls ++ [call]) = []
  rw [prefetched_append, h.calls, other, List.append_nil]

theorem Quiet.giveBack (h : Quiet cfg s w) :
    Meets (fun _ => True) (Quiet cfg s) (w.giveBack cfg t) := by
  unfold Walk.giveBack
  exact Meets.after fun lqe => h.call (prefetched_rep t _) _

theorem Quiet.bypass (wired : cfg.cachel2 ≠ cfg.self) (h : Quiet cfg s w) :
    Meets (fun _ => True) (Quiet cfg s) (w.bypass cfg t) := by
  unfold Walk.bypass
  split
  · exact h
  · have counted := h.count (f := fun st => { st with numBypass := st.numBypass + 1 })
      fun _ => ⟨rfl, rfl⟩
    refine Meets.after fun lqe => ?_
    rw [meets_bind]
    exact (prefetched_answer wired).mono (fun call other => counted.call other _) fun _ h => h

theorem Quiet.evict (h : Quiet cfg s w) :
    Meets (fun _ => True) (Quiet cfg s) (w.evict cfg t index) := by
  have looked := h.count (f := fun st =>
    { st with numCoherencyAccess := st.numCoherencyAccess + 1 })
    fun _ => ⟨rfl, rfl⟩
  unfold Walk.evict
  dsimp only [count_entry]
  split
  · exact looked.deleteAtLast
  · have given := (looked.count (f := fun st => { st with numEvCoherency := st.numEvCoherency + 1 })
      fun _ => ⟨rfl, rfl⟩).setState .invalid
    split
    · split
      · exact given
      · exact given.giveBack
    · exact given.deleteAtLast

theorem Quiet.mToX (h : Quiet cfg s w) : Meets (fun _ => True) (Quiet cfg s) (w.mToX cfg t) := by
  have finish : ∀ w₁ : Walk C, Quiet cfg s w₁ →
      Meets (fun _ => True) (Quiet cfg s)
        (if w₁.sentToL2 then return w₁ else w₁.giveBack cfg t) := by
    intro w₁ quiet
    split
    · exact quiet
    · exact quiet.giveBack
  have looked := h.count (f := fun st =>
    { st with numCoherencyAccess := st.numCoherencyAccess + 1 })
    fun _ => ⟨rfl, rfl⟩
  unfold Walk.mToX
  refine finish _ ?_
  dsimp only [count_entry]
  split
  · exact looked
  · split
    · exact looked
    · split
      · exact (looked.count (f := fun st => { st with numEvCoherency := st.numEvCoherency + 1 })
          fun _ => ⟨rfl, rfl⟩).setState _
      · exact looked.setState _

theorem Quiet.dirRd (h : Quiet cfg s w) :
    Meets (fun _ => True) (Quiet cfg s) (w.dirRd cfg t index) := by
  have looked := h.count (f := fun st =>
    { st with numCoherencyAccess := st.numCoherencyAccess + 1 })
    fun _ => ⟨rfl, rfl⟩
  unfold Walk.dirRd
  dsimp only [count_entry]
  split
  · exact looked.deleteAtLast
  · split
    · exact looked
    · split
      · trivial
      · have lent := (looked.count
          (f := fun st => { st with numEvCoherency := st.numEvCoherency + 1 })
          fun _ => ⟨rfl, rfl⟩).setState .exclusive
        exact lent.call (prefetched_rep t _) _

theorem prefetched_evictVictim (set thId : Nat) (victim : L1Entry) :
    prefetched cfg (evictVictim cfg t set thId victim) = [] := by
  unfold evictVictim
  split
  · rfl
  · exact prefetched_rep t _

theorem Quiet.fill (wired : cfg.cachel2 ≠ cfg.self) (h : Quiet cfg s w) (set tag : Nat)
    (found : Option Nat) : Meets (fun _ => True) (Quiet cfg s) (w.fill cfg t set tag found) := by
  unfold Walk.fill
  refine Meets.after fun lqe => ?_
  dsimp only
  split
  · trivial
  · rename_i e he
    rw [meets_bind]
    refine (prefetched_answer wired).mono (fun call other => ?_) fun _ h => h
    have evicts : prefetched cfg (if found = none then evictVictim cfg t set lqe.thId e else []) =
      [] := by
      split
      · exact prefetched_evictVictim set lqe.thId e
      · rfl
    have calls : prefetched cfg (w.effects.calls ++
        (if found = none then evictVictim cfg t set lqe.thId e else []) ++ [call]) = [] := by
      rw [prefetched_append, prefetched_append, h.calls, evicts, other, List.append_nil,
        List.append_nil]
    split
    · exact ⟨h.table, calls⟩
    · exact ⟨h.table, calls⟩

theorem Quiet.visit (wired : cfg.cachel2 ≠ cfg.self) (h : Quiet cfg s w) :
    Meets (fun _ => True) (Quiet cfg s) (w.visit cfg t index) := by
  have looked : ∀ set found, Quiet cfg s (w.look set found) := fun _ _ => ⟨h.table, h.calls⟩
  unfold Walk.visit
  dsimp only [look]
  split
  · exact ((looked _ _).count (f := fun st => { st with numNack := st.numNack + 1 })
      fun _ => ⟨rfl, rfl⟩).bypass wired
  · exact (looked _ _).bypass wired
  · exact (looked _ _).evict
  · exact (looked _ _).mToX
  · exact (looked _ _).mToX
  · exact (looked _ _).dirRd
  all_goals try trivial
  all_goals
    split
    · exact looked _ _
    · exact (looked _ _).fill wired _ _ _

theorem Quiet.visits (wired : cfg.cachel2 ≠ cfg.self) (h : Quiet cfg s w) (indices : List Nat) :
    Meets (fun _ => True) (Quiet cfg s) (w.visits cfg t indices) := by
  induction indices generalizing w with
  | nil => exact h
  | cons index rest ih =>
    unfold Walk.visits
    rw [meets_bind]
    exact (h.visit wired).mono (fun _ h => ih h) fun _ h => h

end Walk

theorem processReply_quiet (wired : cfg.cachel2 ≠ cfg.self) :
    Meets (fun _ => True) (fun p => p.1.table = s.table ∧ prefetched cfg p.2.calls = [])
      (processReply cfg t s lqe) := by
  have start : Walk.Quiet cfg s { cache := s, lqe } := ⟨rfl, rfl⟩
  unfold processReply
  split
  · trivial
  · rw [meets_bind]
    exact (start.visits wired _).mono (fun w h => ⟨h.table, h.calls⟩) fun _ h => h

end

/-- The table holds the lines prefetched last; those before them have been counted. Every request
that waits has its sender on its stack. -/
structure Prefetching (cfg : L1Config C) (s : CacheL1 C) (lines : List Nat) : Prop where
  timed : Inbox.Timed (fun lqe : Lqe C => lqe.path ≠ []) s.reqEvent
  queued : ∀ i, ∀ lqe ∈ s.reqQs i, lqe.path ≠ []
  table : Rotation 0 cfg.numPreEntries (s.pres.map (·.addr)) s.oldestPreEntryIdx lines
  apart : Apart (· = 0) cfg.numPreEntries lines
  requests : s.stats.numPrefetchRequests = (retired cfg.numPreEntries lines).countP (· ≠ 0)
  hits : s.stats.numPrefetchHits ≤ s.stats.numPrefetchRequests

theorem Prefetching.congr {s' : CacheL1 C} (h : Prefetching cfg s lines)
    (same : s'.table = s.table) :
    Prefetching cfg s' lines := by
  simp only [CacheL1.table, Prod.mk.injEq] at same
  obtain ⟨timed, queued, pres, oldest, requests, hits⟩ := same
  refine ⟨timed ▸ h.timed, queued ▸ h.queued, ?_, h.apart, requests.trans h.requests, ?_⟩
  · rw [pres, oldest]
    exact h.table
  · rw [hits, requests]
    exact h.hits

theorem Prefetching.init (cfg : L1Config C) (numWays : Nat) :
    Prefetching cfg (init cfg numWays) [] where
  timed := .nil
  queued _ _ h := by cases h
  table := by
    rw [CacheL1.init, List.map_replicate]
    exact Rotation.init 0 cfg.numPreEntries
  apart _ _ _ _ _ hi := by cases hi
  requests := by rw [retired, List.take_nil, List.countP_nil, CacheL1.init]
  hits := Nat.le_refl 0

theorem Prefetching.mark {s' : CacheL1 C} {addr : Nat} (h : Prefetching cfg s lines)
    (marked : s.markPrefetch addr = some s') : Prefetching cfg s' lines := by
  obtain ⟨idx, -, rfl⟩ := Option.map_eq_some_iff.mp marked
  have same : (s.pres.modify idx fun pre => { pre with hit := true }).map (·.addr) =
    s.pres.map (·.addr) := by
    refine List.ext_getElem? fun i => ?_
    rw [List.getElem?_map, List.getElem?_map, List.getElem?_modify]
    cases s.pres[i]? with
    | none => rfl
    | some pre =>
      show some (if idx = i then { pre with hit := true } else pre).addr = some pre.addr
      split <;> rfl
  refine ⟨h.timed, h.queued, ?_, h.apart, h.requests, h.hits⟩
  rw [same]
  exact h.table

theorem fresh_of_unmarked {addr : Nat} (unmarked : s.markPrefetch addr = none) :
    addr ∉ s.pres.map (·.addr) ∨ addr = 0 := by
  refine or_iff_not_imp_right.mpr fun nonzero mem => ?_
  obtain ⟨pre, hp, rfl⟩ := List.mem_map.mp mem
  have := List.findIdx?_eq_none_iff.mp (Option.map_eq_none_iff.mp unmarked) pre hp
  exact absurd this (by simpa using nonzero)

theorem prefetched_send [DecidableEq C] (t : Nat) (s : CacheL1 C) (addr thId : Nat) :
    prefetched cfg (s.sendPrefetch cfg t addr thId).2 = [addr] := by
  simp [prefetched, sendPrefetch, isPrefetch, toL2Req, Lqe.new]

theorem Prefetching.send {addr : Nat} (h : Prefetching cfg s lines)
    (fresh : addr ∉ s.pres.map (·.addr) ∨ addr = 0) (t thId : Nat) :
    Prefetching cfg (s.sendPrefetch cfg t addr thId).1 (lines ++ [addr]) := by
  obtain ⟨old, slot, left⟩ := retired_write h.table cfg.numPreEntries_pos addr
  have addrs : ((s.pres.set s.oldestPreEntryIdx { addr }).map (·.addr)) =
      (s.pres.map (·.addr)).set s.oldestPreEntryIdx addr := List.map_set
  have oldest : (s.pres.getD s.oldestPreEntryIdx {}).addr = old := by
    rw [List.getElem?_map, Option.map_eq_some_iff] at slot
    obtain ⟨pre, there, rfl⟩ := slot
    rw [List.getD_eq_getElem?_getD, there, Option.getD_some]
  refine ⟨h.timed, h.queued, ?_, h.apart.write h.table fresh, ?_, ?_⟩
  · unfold sendPrefetch
    dsimp only
    rw [addrs]
    exact h.table.write cfg.numPreEntries_pos addr
  · unfold sendPrefetch
    dsimp only
    rw [oldest]
    rcases left with ⟨-, rfl, same⟩ | ⟨-, more⟩
    · rw [if_pos rfl, same]
      exact h.requests
    · rw [more, List.countP_append, List.countP_singleton, ← h.requests]
      by_cases unused : old = 0
      · simp [unused]
      · simp [unused]
  · have := h.hits
    unfold sendPrefetch
    dsimp only
    split
    · exact this
    · dsimp only
      split <;> omega

section
variable [DecidableEq C]

def Extends (cfg : L1Config C) (s s' : CacheL1 C) (calls : List (Call C)) : Prop :=
  ∀ lines, Prefetching cfg s lines → Prefetching cfg s' (lines ++ prefetched cfg calls)

theorem Extends.quiet {s' : CacheL1 C} {calls : List (Call C)} (same : s'.table = s.table)
    (other : prefetched cfg calls = []) : Extends cfg s s' calls := fun lines h => by
  rw [other, List.append_nil]
  exact h.congr same

theorem Extends.trans {s₁ s₂ : CacheL1 C} {a b : List (Call C)} (first : Extends cfg s s₁ a)
    (second : Extends cfg s₁ s₂ b) : Extends cfg s s₂ (a ++ b) := fun lines h => by
  rw [prefetched_append, ← List.append_assoc]
  exact second _ (first _ h)

theorem sendPrefetch_extends {addr : Nat} (fresh : addr ∉ s.pres.map (·.addr) ∨ addr = 0)
    (t thId : Nat) :
    Extends cfg s (s.sendPrefetch cfg t addr thId).1 (s.sendPrefetch cfg t addr thId).2 :=
  fun lines h => by
  rw [prefetched_send]
  exact h.send fresh t thId

theorem doPrefetch_extends (cfg : L1Config C) (t : Nat) (s : CacheL1 C) (lqe : Lqe C) :
    Extends cfg s (s.doPrefetch cfg t lqe).1 (s.doPrefetch cfg t lqe).2 := by
  have still : ∀ s₁ : CacheL1 C, Extends cfg s₁ s₁ [] := fun s₁ => .quiet rfl rfl
  have marked : ∀ {s₁ s₂ : CacheL1 C} {addr : Nat} {p : CacheL1 C × List (Call C)},
      s₁.markPrefetch addr = some s₂ → Extends cfg s₂ p.1 p.2 → Extends cfg s₁ p.1 p.2 :=
    fun mark after lines h => after lines (h.mark mark)
  have sent : ∀ {s₁ : CacheL1 C} {addr : Nat}, s₁.markPrefetch addr = none →
      Extends cfg s₁ (s₁.sendPrefetch cfg t addr lqe.thId).1
        (s₁.sendPrefetch cfg t addr lqe.thId).2 :=
    fun unmarked => sendPrefetch_extends (fresh_of_unmarked unmarked) t lqe.thId
  unfold doPrefetch
  dsimp only
  split
  on_goal 1 =>
    rename_i mark
    refine marked mark ?_
    rw [Bool.not_true, Bool.false_and, if_neg Bool.false_ne_true]
  on_goal 2 =>
    rename_i unmarked
    split
    · exact sent unmarked
  all_goals
    split
    · rename_i mark
      exact marked mark (still _)
    · rename_i unmarked
      split
      · exact sent unmarked
      · exact still _

theorem prefetched_missed (t : Nat) (asked : lqe.path ≠ []) :
    prefetched cfg [toL2Req cfg t (lqe.push cfg.self)] = [] := by
  refine prefetched_other (decide_eq_false ?_)
  rintro ⟨-, -, own⟩
  exact asked (List.cons.inj own).2

theorem countAccess_prefetches (type : EventType) (st : L1Stats) :
    (countAccess type st).numPrefetchRequests = st.numPrefetchRequests ∧
      (countAccess type st).numPrefetchHits = st.numPrefetchHits := by
  unfold countAccess
  split <;> exact ⟨rfl, rfl⟩

theorem countMiss_prefetches (type : EventType) (st : L1Stats) :
    (countMiss type st).numPrefetchRequests = st.numPrefetchRequests ∧
      (countMiss type st).numPrefetchHits = st.numPrefetchHits := by
  unfold countMiss
  split <;> exact ⟨rfl, rfl⟩

theorem access_quiet (wired : cfg.cachel2 ≠ cfg.self) (asked : lqe.path ≠ []) :
    Meets (fun _ => True) (fun p => p.1.table = s.table ∧ prefetched cfg p.2 = [])
      (access cfg t s lqe) := by
  have counted := countAccess_prefetches lqe.type s.stats
  have answered : ∀ {s' : CacheL1 C}, s'.table = s.table → Meets (fun _ => True)
      (fun p => p.1.table = s.table ∧ prefetched cfg p.2 = [])
      (addEventToLsu cfg t lqe >>= fun answer => (return (s', [answer]) : Except Abort _)) := by
    intro s' same
    rw [meets_bind]
    exact (prefetched_answer wired).mono (fun call other => ⟨same, other⟩) fun _ h => h
  have accessed : ({ s with stats := countAccess lqe.type s.stats } : CacheL1 C).table =
    s.table := by
    rw [table, counted.1, counted.2]
    rfl
  unfold access
  dsimp only
  split
  · exact answered accessed
  · split
    · exact answered accessed
    · exact ⟨accessed, prefetched_missed t asked⟩
    · refine ⟨?_, prefetched_missed t asked⟩
      have missed := countMiss_prefetches lqe.type (countAccess lqe.type s.stats)
      rw [table, missed.1, missed.2, counted.1, counted.2]
      rfl

theorem processRequest_extends (wired : cfg.cachel2 ≠ cfg.self) (asked : lqe.path ≠ []) :
    Meets (fun _ => True) (fun p => Extends cfg s p.1 p.2.calls) (processRequest cfg t s lqe) := by
  unfold processRequest
  rw [meets_bind]
  refine (access_quiet wired asked).mono (fun p h => ?_) fun _ h => h
  have accessed : Extends cfg s p.1 p.2 := .quiet h.1 h.2
  dsimp only
  split
  · exact accessed.trans (doPrefetch_extends cfg t p.1 lqe)
  · exact accessed.trans (.quiet rfl rfl)

theorem processRequests_extends (wired : cfg.cachel2 ≠ cfg.self) (requests : List (Lqe C))
    (asked : ∀ lqe ∈ requests, lqe.path ≠ []) :
    Meets (fun _ => True) (fun p => Extends cfg s p.1 p.2.calls)
      (processRequests cfg t s requests) := by
  induction requests generalizing s with
  | nil => exact Extends.quiet rfl rfl
  | cons lqe rest ih =>
    unfold processRequests
    rw [meets_bind]
    refine (processRequest_extends wired (asked lqe List.mem_cons_self)).mono (fun p h => ?_)
      fun _ h => h
    dsimp only
    rw [meets_bind]
    exact (ih fun other mem => asked other (List.mem_cons_of_mem lqe mem)).mono
      (fun p' h' => h.trans h') fun _ h => h

omit [DecidableEq C] in
theorem Prefetching.take (h : Prefetching cfg s lines) (t : Nat) :
    Prefetching cfg (s.takeEvents cfg t) lines where
  timed := h.timed.dropWhile t
  queued := Inbox.deal_forall _ h.queued (h.timed.front t)
  table := h.table
  apart := h.apart
  requests := h.requests
  hits := h.hits

theorem processEvent_prefetching (wired : cfg.cachel2 ≠ cfg.self) (h : Prefetching cfg s lines) :
    Meets (fun _ => True) (fun p => Prefetching cfg p.1 (lines ++ prefetched cfg p.2.1.calls))
      (processEvent cfg t s) := by
  have taken := h.take t
  have front : ∀ lqe ∈ (s.takeEvents cfg t).frontRequests cfg, lqe.path ≠ [] := by
    intro lqe mem
    obtain ⟨bank, -, head⟩ := List.mem_filterMap.mp mem
    exact taken.queued bank lqe (List.mem_of_mem_head? head)
  unfold processEvent
  rw [meets_bind]
  suffices served : Meets (fun _ => True)
    (fun p => Prefetching cfg p.1 (lines ++ prefetched cfg p.2.calls))
      (serve cfg t (s.takeEvents cfg t)) from served.mono (fun _ h => h) fun _ h => h
  unfold serve
  split
  · refine (processReply_quiet wired).mono (fun p quiet => ?_) fun _ h => h
    exact Extends.quiet quiet.1 quiet.2 lines (taken.congr rfl)
  · have behind : Prefetching cfg { s.takeEvents cfg t with
        reqQs := fun bank => ((s.takeEvents cfg t).reqQs bank).tail } lines :=
      ⟨taken.timed, fun i lqe mem => taken.queued i lqe (List.mem_of_mem_tail mem), taken.table,
        taken.apart, taken.requests, taken.hits⟩
    exact (processRequests_extends wired _ front).mono (fun p more => more lines behind)
      fun _ h => h

/-- Runs with the calls that the cache has made. A request comes with its sender on its stack. -/
inductive Logged (cfg : L1Config C) (numWays : Nat) : CacheL1 C → List (Call C) → Prop
  | init : Logged cfg numWays (init cfg numWays) []
  | addReq {s : CacheL1 C} {log : List (Call C)} (t : Nat) (lqe : Lqe C) (asked : lqe.path ≠ []) :
      Logged cfg numWays s log → Logged cfg numWays (s.addReqEvent t lqe) log
  | addRep {s : CacheL1 C} {log : List (Call C)} (t : Nat) (lqe : Lqe C) :
      Logged cfg numWays s log → Logged cfg numWays (s.addRepEvent t lqe) log
  | process {s s' : CacheL1 C} {log : List (Call C)} {effects : Effects C}
      {wakeup : Option Nat} (t : Nat) :
      Logged cfg numWays s log → s.processEvent cfg t = .ok (s', effects, wakeup) →
      Logged cfg numWays s' (log ++ effects.calls)

theorem Logged.prefetching {numWays : Nat} {log : List (Call C)} (run : Logged cfg numWays s log)
    (wired : cfg.cachel2 ≠ cfg.self) : Prefetching cfg s (prefetched cfg log) := by
  induction run with
  | init => exact .init cfg numWays
  | addReq t lqe asked _ ih =>
    exact ⟨ih.timed.insert asked t, ih.queued, ih.table, ih.apart, ih.requests, ih.hits⟩
  | addRep t lqe _ ih => exact ⟨ih.timed, ih.queued, ih.table, ih.apart, ih.requests, ih.hits⟩
  | process t _ served ih =>
    rw [prefetched_append]
    exact (processEvent_prefetching wired ih).of_ok served

/-- A line that has been prefetched is not prefetched again while the table still names it: two
prefetches of one line are more than `num_pre_entries` prefetches apart, unless the line is line
0. -/
theorem prefetches_apart {numWays : Nat} {log : List (Call C)} (wired : cfg.cachel2 ≠ cfg.self)
    (run : Logged cfg numWays s log) {i j line : Nat} (before : i < j)
    (hi : (prefetched cfg log)[i]? = some line) (hj : (prefetched cfg log)[j]? = some line)
    (nonzero : line ≠ 0) : i + cfg.numPreEntries < j := by
  by_contra near
  exact nonzero ((run.prefetching wired).apart i j line before (by omega) hi hj)

/-- The counters are about the prefetches that have left the table, all but the last
`num_pre_entries`. -/
theorem prefetches_counted {numWays : Nat} {log : List (Call C)} (wired : cfg.cachel2 ≠ cfg.self)
    (run : Logged cfg numWays s log) :
    s.stats.numPrefetchHits ≤ s.stats.numPrefetchRequests ∧
      s.stats.numPrefetchRequests = ((prefetched cfg log).take
        ((prefetched cfg log).length - cfg.numPreEntries)).countP (· ≠ 0) :=
  ⟨(run.prefetching wired).hits, (run.prefetching wired).requests⟩

end

def lineBits : Nat := 6

def onePrefetch : L1Config Nat where
  self := 1
  isData := true
  cachel2 := 2
  setLsb := lineBits
  l2SetLsb := lineBits
  setLsb_le := Nat.le_refl lineBits
  numSets := 2
  numSets_pos := Nat.two_pos
  numBanks := 1
  numBanks_pos := Nat.one_pos
  numPreEntries := 1
  numPreEntries_pos := Nat.one_pos
  l1ToLsuT := 10
  l1ToL2T := 45
  alwaysHit := false
  usePrefetch := true
  processInterval := 10

def loadOf (address : Nat) : Lqe Nat := { path := [0], type := .read, address }

def serveReads : Nat → CacheL1 Nat → List (Call Nat) → List Nat →
    Except Abort (CacheL1 Nat × List (Call Nat))
  | _, s, log, [] => return (s, log)
  | t, s, log, address :: rest => do
    let (s, effects, _) ← (s.addReqEvent t (loadOf address)).processEvent onePrefetch t
    serveReads (t + 10) s (log ++ effects.calls) rest

def lineOne : CacheL1 Nat :=
  (init onePrefetch 1).addRepEvent 10 { path := [1, 0], type := .read, address := 64 }

def playPrefetches : Except Abort (CacheL1 Nat × List (Call Nat)) := do
  let (s, effects, _) ← lineOne.processEvent onePrefetch 10
  serveReads 20 s effects.calls [128, 0, 128]

theorem Logged.serveReads {t numWays : Nat} {s : CacheL1 Nat} {log : List (Call Nat)}
    (run : Logged onePrefetch numWays s log) (addresses : List Nat) :
    Meets (fun _ => True) (fun p => Logged onePrefetch numWays p.1 p.2)
      (serveReads t s log addresses) := by
  induction addresses generalizing s log t with
  | nil => exact run
  | cons address rest ih =>
    unfold CacheL1.serveReads
    cases served : (s.addReqEvent t (loadOf address)).processEvent onePrefetch t with
    | error a => trivial
    | ok p => exact ih (.process t (.addReq t _ (List.cons_ne_nil _ _) run) served)

theorem playPrefetches_logged :
    Meets (fun _ => True) (fun p => Logged onePrefetch 1 p.1 p.2) playPrefetches := by
  unfold playPrefetches
  cases filled : lineOne.processEvent onePrefetch 10 with
  | error a => trivial
  | ok p =>
    have run : Logged onePrefetch 1 p.1 ([] ++ p.2.1.calls) :=
      .process 10 (.addRep 10 _ .init) filled
    exact run.serveReads _

theorem playPrefetches_lines : ∃ p, playPrefetches = .ok p ∧
    prefetched onePrefetch p.2 = [192, 2 ^ 64 - 64, 192] ∧ p.1.stats.numPrefetchRequests = 2 :=
  Meets.result (by decide +kernel)

/-- Line 3 is prefetched twice, and the entry for it was taken in between. -/
theorem prefetches_apart_of_reads : ∃ (s : CacheL1 Nat) (log : List (Call Nat)),
    Logged onePrefetch 1 s log ∧ (prefetched onePrefetch log)[0]? = some 192 ∧
      (prefetched onePrefetch log)[2]? = some 192 ∧ 0 + onePrefetch.numPreEntries < 2 := by
  obtain ⟨p, hp, lines, -⟩ := playPrefetches_lines
  have run := playPrefetches_logged.of_ok hp
  have first : (prefetched onePrefetch p.2)[0]? = some 192 := by rw [lines]; rfl
  have again : (prefetched onePrefetch p.2)[2]? = some 192 := by rw [lines]; rfl
  exact ⟨p.1, p.2, run, first, again,
    prefetches_apart (by decide) run Nat.two_pos first again (by decide)⟩

/-- The first two of three prefetches have been counted. -/
theorem prefetches_counted_of_reads : ∃ (s : CacheL1 Nat) (log : List (Call Nat)),
    Logged onePrefetch 1 s log ∧ (prefetched onePrefetch log).length = 3 ∧
      s.stats.numPrefetchRequests = 2 ∧ s.stats.numPrefetchHits ≤ 2 := by
  obtain ⟨p, hp, lines, requests⟩ := playPrefetches_lines
  have run := playPrefetches_logged.of_ok hp
  have counted := prefetches_counted (by decide) run
  exact ⟨p.1, p.2, run, by rw [lines]; rfl, requests, requests ▸ counted.1⟩

end McSim.CacheL1
