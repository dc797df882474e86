import McSim.CacheL2Conservation
import Mathlib.Algebra.BigOperators.Group.Finset.Basic
import Mathlib.Data.Finset.Range

/-! The ledger of a second-level cache.
In a run whose calls of `process_event` meet the conditions, every element that has entered is in
one place. -/

namespace McSim.CacheL2

open Contract

variable {C : Type}

def pendings (ways : List (L2Entry C)) : List (Lqe C) := ways.filterMap (·.pending)

def inside (cfg : L2Config C) (k : Nat) (s : CacheL2 C) : Nat :=
  tally k (s.reqEvent.map (·.2)) + tally k (s.repEvent.map (·.2)) + tally k s.repQ +
    ∑ bank ∈ Finset.range cfg.numBanks, tally k (s.reqQs bank) +
    ∑ set ∈ Finset.range cfg.numSets, tally k (pendings (s.tags set))

theorem sum_update {α : Type} (f : Nat → α) (g : α → Nat) {i n : Nat} (h : i < n) (v : α) :
    ∑ j ∈ Finset.range n, g (Function.update f i v j) + g (f i) =
      ∑ j ∈ Finset.range n, g (f j) + g v := by
  have mem := Finset.mem_range.mpr h
  rw [← Finset.add_sum_erase _ _ mem, ← Finset.add_sum_erase _ (fun j => g (f j)) mem]
  have others : ∑ j ∈ (Finset.range n).erase i, g (Function.update f i v j) =
      ∑ j ∈ (Finset.range n).erase i, g (f j) :=
    Finset.sum_congr rfl fun j hj => by rw [Function.update_of_ne (Finset.ne_of_mem_erase hj)]
  rw [others, Function.update_self]
  omega

theorem tally_perm {k : Nat} {a b : List (Lqe C)} (h : a.Perm b) : tally k a = tally k b :=
  h.countP_eq _

theorem tally_pendings_cons (k : Nat) (e : L2Entry C) (ways : List (L2Entry C)) :
    tally k (pendings (e :: ways)) = tally k e.pending.toList + tally k (pendings ways) := by
  unfold pendings
  cases hp : e.pending with
  | none => simp [hp]
  | some p =>
    simp [hp]
    omega

theorem tally_updateWay {ways : List (L2Entry C)} {idx : Nat} {target : L2Entry C}
    (h : ways[idx]? = some target) (k : Nat) (u : WayUpdate C) :
    tally k (pendings (updateWay ways idx u)) + tally k target.pending.toList =
      tally k (pendings ways) + tally k (u.pending target.pending).toList := by
  obtain ⟨hlt, rfl⟩ := List.getElem?_eq_some_iff.mp h
  have before := tally_perm (k := k) ((List.getElem_cons_eraseIdx_perm hlt).filterMap (·.pending))
  rw [← pendings, tally_pendings_cons, ← pendings] at before
  cases u with
  | keep => rfl
  | set e =>
    have after := tally_perm (k := k) ((List.set_perm_cons_eraseIdx hlt e).filterMap (·.pending))
    rw [← pendings, ← pendings, tally_pendings_cons] at after
    simp only [updateWay, WayUpdate.pending]
    omega
  | touch e =>
    have after : tally k (pendings (ways.eraseIdx idx ++ [e])) =
        tally k (pendings (ways.eraseIdx idx)) + tally k e.pending.toList := by
      rw [pendings, List.filterMap_append, tally_append, ← pendings, ← pendings,
        tally_pendings_cons]
      simp [pendings]
    simp only [updateWay, WayUpdate.pending]
    omega

theorem apply_inside {cfg : L2Config C} {s : CacheL2 C} {set idx : Nat} {o : Outcome C}
    {lqe : Lqe C} {target : L2Entry C} (hset : set < cfg.numSets)
    (ht : (s.tags set)[idx]? = some target)
    (ho : Settled o.calls o.deleted o.way target.pending lqe) (k : Nat) :
    inside cfg k (s.apply set idx o).1 + tally k ((s.apply set idx o).2.calls.map (·.lqe)) +
      tally k (s.apply set idx o).2.deleted = inside cfg k s + tally k [lqe] := by
  have settled := ho k
  have way := tally_updateWay ht k o.way
  have sum := sum_update s.tags (fun ways => tally k (pendings ways)) hset
    (updateWay (s.tags set) idx o.way)
  simp only [inside, apply]
  omega

structure Ordered (cfg : L2Config C) (s : CacheL2 C) : Prop where
  ways : ∀ set, s.tags set ≠ []
  homes : ∀ set, ∀ e ∈ s.tags set, AtHome cfg set e

theorem updateWay_ne_nil {ways : List (L2Entry C)} (h : ways ≠ []) (idx : Nat) (u : WayUpdate C) :
    updateWay ways idx u ≠ [] := by
  cases u with
  | keep => exact h
  | set e => simpa [updateWay] using h
  | touch e => simp [updateWay]

theorem apply_ordered {cfg : L2Config C} {s : CacheL2 C} (h : Ordered cfg s) (set idx : Nat)
    {o : Outcome C} (ho : o.way.Forall (AtHome cfg set)) : Ordered cfg (s.apply set idx o).1 := by
  constructor
  · intro set'
    by_cases hset : set' = set
    · subst hset
      simpa [apply] using updateWay_ne_nil (h.ways set') idx o.way
    · simpa [apply, Function.update_of_ne hset] using h.ways set'
  · intro set' e he
    by_cases hset : set' = set
    · subst hset
      simp only [apply, Function.update_self] at he
      exact updateWay_forall idx (h.homes set') ho e he
    · simp only [apply, Function.update_of_ne hset] at he
      exact h.homes set' e he

structure Accounts (cfg : L2Config C) (s : CacheL2 C) (taken : List (Lqe C))
    (r : CacheL2 C × Effects C) : Prop where
  ordered : Ordered cfg r.1
  total : ∀ k, inside cfg k r.1 + tally k (r.2.calls.map (·.lqe)) + tally k r.2.deleted =
    inside cfg k s + tally k taken

section Steps
variable [LinearOrder C] {cfg : L2Config C} {t : Nat} {s : CacheL2 C}

omit [LinearOrder C] in
theorem setOf_lt (cfg : L2Config C) (address : Nat) : cfg.setOf address < cfg.numSets :=
  Nat.mod_lt _ cfg.numSets_pos

omit [LinearOrder C] in
theorem finds_reply (h : Ordered cfg s) {lqe : Lqe C} {e : L2Entry C}
    (he : found (holdsForReply (cfg.tagOf lqe.address)) (s.tags (cfg.setOf lqe.address)) = some e) :
    Finds cfg (cfg.setOf lqe.address) lqe e := by
  obtain ⟨idx, -, hi, hp⟩ := found_eq_some he
  simp only [holdsForReply, decide_eq_true_eq] at hp
  exact ⟨rfl, hp.2, hp.1, h.homes _ e (List.mem_of_getElem? hi)⟩

omit [LinearOrder C] in
theorem finds_request (h : Ordered cfg s) {lqe : Lqe C} {e : L2Entry C}
    (he : found (holdsForRequest (cfg.tagOf lqe.address)) (s.tags (cfg.setOf lqe.address)) =
      some e) :
    Finds cfg (cfg.setOf lqe.address) lqe e := by
  obtain ⟨idx, -, hi, hp⟩ := found_eq_some he
  simp only [holdsForRequest, decide_eq_true_eq] at hp
  exact ⟨rfl, hp.2.2, hp.1, h.homes _ e (List.mem_of_getElem? hi)⟩

def ReplyStepOk (cfg : L2Config C) (s : CacheL2 C) (lqe : Lqe C) : Prop :=
  ∀ victim, (s.tags (cfg.setOf lqe.address)).head? = some victim →
    ReplyOk (found (holdsForReply (cfg.tagOf lqe.address)) (s.tags (cfg.setOf lqe.address))) victim
      lqe

def RequestStepOk (cfg : L2Config C) (s : CacheL2 C) (lqe : Lqe C) : Prop :=
  RequestOk cfg (found (holdsForRequest (cfg.tagOf lqe.address)) (s.tags (cfg.setOf lqe.address)))
    lqe

theorem processReply_accounts (h : Ordered cfg s) (lqe : Lqe C) (ok : ReplyStepOk cfg s lqe) :
    Ends (Accounts cfg s [lqe]) (processReply cfg t s lqe) := by
  unfold processReply
  dsimp only
  split
  · trivial
  · rename_i victim hv
    refine Ends.bind (reply_conserves (fun e he => finds_reply h he) (ok victim hv)) fun o ho => ?_
    exact ⟨apply_ordered h _ _ ho.2, apply_inside (setOf_lt cfg _) (target_way hv) ho.1⟩

theorem processRequest_accounts (h : Ordered cfg s) (lqe : Lqe C) (ok : RequestStepOk cfg s lqe) :
    Ends (Accounts cfg s [lqe]) (processRequest cfg t s lqe) := by
  obtain ⟨victim, hv⟩ := Option.isSome_iff_exists.mp
    (List.isSome_head?.mpr (h.ways (cfg.setOf lqe.address)))
  have conserved := @request_conserves _ _ cfg t _ lqe s.stats _ _ (fun e he => And.intro
    (finds_request h he) (show ((found _ _).getD victim).pending = e.pending by rw [he]; rfl)) ok
  refine Ends.bind conserved fun o ho => ?_
  exact ⟨apply_ordered h _ _ ho.2, apply_inside (setOf_lt cfg _) (target_way hv) ho.1⟩

def RequestsOk (cfg : L2Config C) (t : Nat) : CacheL2 C → List (Lqe C) → Prop
  | _, [] => True
  | s, lqe :: rest => RequestStepOk cfg s lqe ∧
      ∀ r, processRequest cfg t s lqe = .ok r → RequestsOk cfg t r.1 rest

theorem processRequests_accounts (requests : List (Lqe C)) (h : Ordered cfg s)
    (ok : RequestsOk cfg t s requests) :
    Ends (Accounts cfg s requests) (processRequests cfg t s requests) := by
  induction requests generalizing s with
  | nil => exact ⟨h, fun k => by simp⟩
  | cons lqe rest ih =>
    have first := processRequest_accounts (t := t) h lqe ok.1
    unfold processRequests
    cases hr : processRequest cfg t s lqe with
    | error a => trivial
    | ok r =>
      rw [hr] at first
      change Ends _ (processRequests cfg t r.1 rest >>= _)
      refine Ends.bind (ih first.ordered (ok.2 r hr)) fun r' h' => ⟨h'.ordered, fun k => ?_⟩
      have one := first.total k
      have more := h'.total k
      simp only [List.map_append, tally_append, tally_cons, tally_nil] at one more ⊢
      omega

omit [LinearOrder C] in
theorem tally_front (k t : Nat) (m : List (Nat × Lqe C)) :
    tally k ((Multimap.front t m).map (·.2)) + tally k ((m.dropWhile fun e => e.1 = t).map (·.2)) =
      tally k (m.map (·.2)) := by
  rw [← tally_append, ← List.map_append, Multimap.front, List.takeWhile_append_dropWhile]

omit [LinearOrder C] in
theorem enqueue_tally (k : Nat) (due : List (Lqe C)) (qs : Nat → List (Lqe C)) :
    ∑ bank ∈ Finset.range cfg.numBanks, tally k (due.foldl (enqueue cfg) qs bank) =
      ∑ bank ∈ Finset.range cfg.numBanks, tally k (qs bank) + tally k due := by
  induction due generalizing qs with
  | nil => rfl
  | cons lqe due ih =>
    have one := sum_update qs (tally k) (Nat.mod_lt (lqe.address >>> cfg.setLsb) cfg.numBanks_pos)
      (qs ((lqe.address >>> cfg.setLsb) % cfg.numBanks) ++ [lqe])
    rw [List.foldl_cons, ih, enqueue]
    simp only [tally_append, tally_cons, tally_nil] at one ⊢
    omega

omit [LinearOrder C] in
theorem heads_tails (k n : Nat) (qs : Nat → List (Lqe C)) :
    tally k ((List.range n).filterMap fun bank => (qs bank).head?) +
      ∑ bank ∈ Finset.range n, tally k (qs bank).tail =
    ∑ bank ∈ Finset.range n, tally k (qs bank) := by
  induction n with
  | zero => rfl
  | succ n ih =>
    rw [List.range_succ, List.filterMap_append, tally_append, Finset.sum_range_succ,
      Finset.sum_range_succ, ← ih]
    cases hq : qs n with
    | nil => simp [hq]
    | cons lqe rest =>
      simp [hq]
      omega

omit [LinearOrder C] in
theorem takeEvents_inside (k : Nat) : inside cfg k (s.takeEvents cfg t) = inside cfg k s := by
  have reps := tally_front k t s.repEvent
  have reqs := tally_front k t s.reqEvent
  simp only [inside, takeEvents, enqueue_tally, tally_append]
  omega

/-- The condition on a call of `process_event`. -/
def ProcessOk (cfg : L2Config C) (t : Nat) (s : CacheL2 C) : Prop :=
  let s := s.takeEvents cfg t
  match s.repQ with
  | lqe :: _ => ReplyStepOk cfg s lqe
  | [] => RequestsOk cfg t { s with reqQs := fun bank => (s.reqQs bank).tail } (s.frontRequests cfg)

theorem processEvent_accounts (h : Ordered cfg s) (ok : ProcessOk cfg t s) :
    Ends (fun r => Accounts cfg s [] (r.1, r.2.1)) (processEvent cfg t s) := by
  unfold processEvent
  have inside_eq := @takeEvents_inside _ cfg t s
  have taken : Ordered cfg (s.takeEvents cfg t) := ⟨h.ways, h.homes⟩
  unfold ProcessOk at ok
  generalize s.takeEvents cfg t = s' at *
  have served : Ends (Accounts cfg s []) (serve cfg t s') := by
    dsimp only at ok
    revert ok
    unfold serve
    cases hq : s'.repQ with
    | cons lqe repQ =>
      intro ok
      refine Meets.mono (@processReply_accounts _ _ cfg t { s' with repQ } ⟨taken.ways, taken.homes⟩
        lqe ok) (fun r hr => ⟨hr.ordered, fun k => (hr.total k).trans ?_⟩) fun _ _ => trivial
      rw [← inside_eq k]
      simp [inside, hq]
      omega
    | nil =>
      intro ok
      dsimp only at ok ⊢
      split
      · trivial
      · refine Meets.mono (processRequests_accounts _ ⟨taken.ways, taken.homes⟩ ok)
          (fun r hr => ⟨hr.ordered, fun k => (hr.total k).trans ?_⟩) fun _ _ => trivial
        have banks := heads_tails k cfg.numBanks s'.reqQs
        rw [← inside_eq k]
        simp only [inside, frontRequests, tally_nil, hq] at banks ⊢
        omega
  exact served.bind fun r hr => hr

end Steps

structure Ledger (C : Type) where
  cache : CacheL2 C
  entered : Nat := 0
  handed : List (Lqe C) := []
  deleted : List (Lqe C) := []

/-- Any element may enter at any time; `ok` restricts the calls of `process_event`. -/
inductive LedgerRun [LinearOrder C] (cfg : L2Config C) (numWays : Nat)
    (ok : Nat → CacheL2 C → Prop) : Ledger C → Prop
  | init : LedgerRun cfg numWays ok { cache := init numWays }
  | addReq {l : Ledger C} (t : Nat) (lqe : Lqe C) : LedgerRun cfg numWays ok l →
      LedgerRun cfg numWays ok { l with
        cache := l.cache.addReqEvent cfg t { lqe with serial := some l.entered }
        entered := l.entered + 1 }
  | addRep {l : Ledger C} (t : Nat) (lqe : Lqe C) : LedgerRun cfg numWays ok l →
      LedgerRun cfg numWays ok { l with
        cache := l.cache.addRepEvent cfg t { lqe with serial := some l.entered }
        entered := l.entered + 1 }
  | process {l : Ledger C} {s : CacheL2 C} {effects : Effects C} {wakeup : Option Nat} (t : Nat) :
      LedgerRun cfg numWays ok l → ok t l.cache →
      l.cache.processEvent cfg t = .ok (s, effects, wakeup) →
      LedgerRun cfg numWays ok { l with
        cache := s
        handed := l.handed ++ effects.calls.map (·.lqe)
        deleted := l.deleted ++ effects.deleted }

/-- Every element that entered is in one place; a pending one is with its line, in a way in use. -/
structure Conserved (cfg : L2Config C) (l : Ledger C) : Prop where
  once : ∀ k < l.entered, inside cfg k l.cache + tally k l.handed + tally k l.deleted = 1
  homes : ∀ set, ∀ e ∈ l.cache.tags set, AtHome cfg set e

def Counted (cfg : L2Config C) (l : Ledger C) : Prop :=
  ∀ k, inside cfg k l.cache + tally k l.handed + tally k l.deleted = if k < l.entered then 1 else 0

theorem tally_insert (k t : Nat) (lqe : Lqe C) (m : List (Nat × Lqe C)) :
    tally k ((Multimap.insert t lqe m).map (·.2)) =
      tally k (m.map (·.2)) + if lqe.serial = some k then 1 else 0 := by
  rw [tally_perm ((Multimap.insert_perm t lqe m).map _), List.map_cons, tally_cons]

theorem inside_init [LinearOrder C] (cfg : L2Config C) (numWays k : Nat) :
    inside cfg k (init numWays : CacheL2 C) = 0 := by
  have empty : pendings ((List.range numWays).map fun way => ({ way } : L2Entry C)) = [] := by
    simp [pendings]
  simp [inside, init, empty]

theorem ledgerRun_inv [LinearOrder C] {cfg : L2Config C} {numWays : Nat} {l : Ledger C}
    (hn : 1 ≤ numWays) (h : LedgerRun cfg numWays (ProcessOk cfg) l) :
    Ordered cfg l.cache ∧ Counted cfg l := by
  induction h with
  | init =>
    refine ⟨⟨fun set => ?_, fun set e he => ?_⟩, fun k => ?_⟩
    · simp [CacheL2.init]
      omega
    · obtain ⟨way, -, rfl⟩ := List.mem_map.mp he
      intro p hp
      cases hp
    · simp [inside_init]
  | @addReq l t lqe _ ih =>
    refine ⟨⟨ih.1.ways, ih.1.homes⟩, fun k => ?_⟩
    have := ih.2 k
    simp only [inside, addReqEvent, tally_insert, Option.some.injEq] at this ⊢
    split_ifs at this ⊢ <;> omega
  | @addRep l t lqe _ ih =>
    refine ⟨⟨ih.1.ways, ih.1.homes⟩, fun k => ?_⟩
    have := ih.2 k
    simp only [inside, addRepEvent, tally_insert, Option.some.injEq] at this ⊢
    split_ifs at this ⊢ <;> omega
  | process t _ ok hs ih =>
    have accounts := Meets.of_ok (processEvent_accounts ih.1 ok) hs
    refine ⟨accounts.ordered, fun k => ?_⟩
    have before := ih.2 k
    have step := accounts.total k
    simp only [tally_append, tally_nil] at step ⊢
    omega

/-- Where every step meets its condition, no element is lost. -/
theorem run_conserved [LinearOrder C] {cfg : L2Config C} {numWays : Nat} {l : Ledger C}
    (hn : 1 ≤ numWays) (h : LedgerRun cfg numWays (ProcessOk cfg) l) : Conserved cfg l := by
  obtain ⟨ordered, counted⟩ := ledgerRun_inv hn h
  exact ⟨fun k hk => (counted k).trans (if_pos hk), ordered.homes⟩

def fillOf (address : Nat) : Lqe Nat := { path := [1, 10, 11], type := .eRd, address }

def afterFill : Ledger Nat where
  cache := {
    tags := Function.update (init 1).tags 0 [{
      tag := 1, type := .exclusive, typeL1L2 := .exclusive, sharedL1 := {10}
      firstAccessTime := 20, lastAccessTime := 20 }] }
  entered := 1
  handed := [{ path := [10, 11], type := .read, address := 64, serial := some 0 }]

theorem afterFill_run (ok : Nat → CacheL2 Nat → Prop)
    (h : ok 20 ((init 1).addRepEvent oneLine 20 { fillOf 64 with serial := some 0 })) :
    LedgerRun oneLine 1 ok afterFill :=
  .process 20 (.addRep 20 (fillOf 64) .init) h rfl

theorem run_conserved_fill : Conserved oneLine afterFill := by
  refine run_conserved (by decide) (afterFill_run _ ?_)
  intro victim hv _
  cases hv
  rfl

def prefetch : Lqe Nat := { path := [10], type := .read, address := 64 }

/-- A prefetch that hits is neither answered nor deleted. -/
theorem prefetch_lost : ∃ l, LedgerRun oneLine 1 (fun _ _ => True) l ∧ ¬ Conserved oneLine l := by
  refine ⟨_, .process 40 (.addReq 40 prefetch (afterFill_run _ trivial)) trivial rfl, fun h => ?_⟩
  have lost := h.once 1 (by decide)
  revert lost
  decide

end McSim.CacheL2
