import McSim.CacheL1Sets
import McSim.CacheL2Sets

/-! What the caches of both levels make of their sets, over whole runs: which way a line is put
into, what is sent for the line that was there, and whether a way that is free is taken first. -/

namespace McSim

open Contract SetAssociative

variable {C : Type}

namespace CacheL1

variable {cfg : L1Config C} {t n : Nat} {lqe : Lqe C} {s : CacheL1 C} {uses : List (Nat × Nat)}

/-- The sets of a cache, and what its next step sends for a line that loses its way -/
structure SetsKept (cfg : L1Config C) (n : Nat) (s : CacheL1 C) : Prop where
  ways : ∀ set, ((s.tags set).map (·.way)).Perm (List.range n)
  distinct : ∀ set, (s.tags set).Pairwise fun a b => a.state ≠ .invalid → b.state ≠ .invalid →
    a.tag ≠ b.tag
  victims : ∀ t s' effects wakeup, s.processEvent cfg t = .ok (s', effects, wakeup) →
    ∀ set e, Evicted reading (s.tags set) (s'.tags set) e → ∀ address ∈ evictions effects.calls,
      cfg.setOf address = set ∧ cfg.tagOf address = e.tag ∧ address % 2 ^ cfg.setLsb = 0

/-- The ways are in the order of their last use, and a fill of an absent line takes the one whose
last use is the longest ago. -/
structure LeastRecent (cfg : L1Config C) (s : CacheL1 C) (uses : List (Nat × Nat)) : Prop where
  order : ∀ set, ByUse uses (waysOf set (s.tags set))
  oldest : ∀ t s' effects wakeup lqe rest, (s.takeEvents cfg t).repQ = lqe :: rest →
    IsFill lqe.type →
    found cfg s lqe = none → s.processEvent cfg t = .ok (s', effects, wakeup) →
    ∃ way, fillWay cfg lqe s' = some (cfg.setOf lqe.address, way) ∧
      ∀ e ∈ s.tags (cfg.setOf lqe.address),
        lastUse uses (cfg.setOf lqe.address, way) ≤ lastUse uses (cfg.setOf lqe.address, e.way)

theorem processEvent_fill {rest : List (Lqe C)} (front : (s.takeEvents cfg t).repQ = lqe :: rest)
    (fill : IsFill lqe.type) : Meets (fun _ => True) (fun r => ∃ e, Filled cfg t s lqe e r.1 r.2.1)
      (s.processEvent cfg t) := by
  unfold processEvent serve
  rw [front, meets_bind]
  refine (processReply_fill fill).mono (fun r ⟨e, filled⟩ => ?_) fun _ h => h
  exact ⟨e, filled.entry, filled.tags, filled.calls, filled.capacity⟩

theorem Run.setsKept (h : Run cfg n s) : SetsKept cfg n s where
  ways set := (h.wellFormed set).ways
  distinct set := (h.wellFormed set).distinct
  victims t s' effects wakeup step set e evicted address mem := by
    obtain ⟨hset, named⟩ := (processEvent_evicted (UseRun.inOrder h.useRun.choose_spec)).of_ok step
      set e evicted
    rw [named address mem]
    exact address_parts e.tag hset

theorem UseRun.leastRecent (h : UseRun cfg n s uses) (real : cfg.alwaysHit = false) :
    LeastRecent cfg s uses where
  order := h.inOrder.byUse real
  oldest t s' effects wakeup lqe rest front fill absent step := by
    obtain ⟨victim, filled⟩ := (processEvent_fill front fill).of_ok step
    refine ⟨victim.way, filled.fillWay fill h.inOrder.wellFormed, fun e he => ?_⟩
    have at' := filled.entry
    rw [absent, Option.getD_none] at at'
    have first : (waysOf (cfg.setOf lqe.address) (s.tags (cfg.setOf lqe.address))).head? =
        some (cfg.setOf lqe.address, victim.way) := by
      rw [waysOf, List.head?_map, List.head?_eq_getElem?, at']
      rfl
    exact (h.inOrder.byUse real _).head first _ (List.mem_map_of_mem he)

end CacheL1

namespace CacheL2

variable [LinearOrder C] {cfg : L2Config C} {t n : Nat} {lqe : Lqe C} {s : CacheL2 C}

structure SetsKept (cfg : L2Config C) (n : Nat) (s : CacheL2 C) : Prop where
  ways : ∀ set, ((s.tags set).map (·.way)).Perm (List.range n)
  distinct : ∀ set, (s.tags set).Pairwise fun a b => a.type ≠ .invalid → b.type ≠ .invalid →
    a.tag ≠ b.tag
  victims : ∀ t s' effects wakeup, s.processEvent cfg t = .ok (s', effects, wakeup) →
    ∀ set e, Evicted reading (s.tags set) (s'.tags set) e → ∀ address ∈ evictions effects.calls,
      cfg.setOf address = set ∧ cfg.tagOf address = e.tag ∧ address % 2 ^ cfg.setLsb = 0

theorem processEvent_fill {rest : List (Lqe C)} (front : (s.takeEvents cfg t).repQ = lqe :: rest)
    (fill : IsFill lqe.type)
    (absent : found (holdsForReply (cfg.tagOf lqe.address)) (s.tags (cfg.setOf lqe.address)) =
      none) :
    Meets (fun _ => True) (fun r => ∃ victim, FilledAbsent cfg s lqe victim r.1 r.2.1.calls)
      (s.processEvent cfg t) := by
  let taken : CacheL2 C := { s.takeEvents cfg t with repQ := rest }
  have absent' : found (holdsForReply (cfg.tagOf lqe.address))
    (taken.tags (cfg.setOf lqe.address)) = none := absent
  unfold processEvent serve
  rw [front, meets_bind]
  refine (processReply_fill fill absent').mono (fun r ⟨victim, filled⟩ => ?_) fun _ h => h
  exact ⟨victim, filled.first, filled.absent, filled.fill, filled.outcome⟩

theorem Run.setsKept (h : Run cfg n s) : SetsKept cfg n s where
  ways set := (h.wellFormed set).ways
  distinct set := (h.wellFormed set).distinct
  victims t s' effects wakeup step set e evicted address mem := by
    obtain ⟨hset, named⟩ := ((processEvent_sets h.wellFormed).of_ok step).2 set e evicted
    rw [named address mem]
    exact address_parts e.tag hset

end CacheL2

/-- In every run of a cache of either level the sets are kept; where the first level looks its lines
up, it takes the way for a new line that was used least recently. -/
theorem sets_kept [LinearOrder C] (n : Nat) :
    (∀ (cfg : L1Config C) s, CacheL1.Run cfg n s → CacheL1.SetsKept cfg n s) ∧
      (∀ (cfg : L2Config C) s, CacheL2.Run cfg n s → CacheL2.SetsKept cfg n s) ∧
      ∀ (cfg : L1Config C) s uses, cfg.alwaysHit = false → CacheL1.UseRun cfg n s uses →
        CacheL1.LeastRecent cfg s uses :=
  ⟨fun _ _ h => h.setsKept, fun _ _ h => h.setsKept, fun _ _ _ real h => h.leastRecent real⟩

namespace CacheL1

structure Arrival where
  time : Nat
  kind : CallKind
  lqe : Lqe Nat

def Arrival.add (a : Arrival) (s : CacheL1 Nat) : CacheL1 Nat :=
  match a.kind with
  | .rep => s.addRepEvent a.time a.lqe
  | _ => s.addReqEvent a.time a.lqe

def play (cfg : L1Config Nat) : List Arrival → CacheL1 Nat → List (Nat × Nat) →
    Except Abort (CacheL1 Nat × List (Nat × Nat))
  | [], s, uses => return (s, uses)
  | a :: rest, s, uses => do
    let s := a.add s
    let (s', _, _) ← s.processEvent cfg a.time
    play cfg rest s' (used cfg a.time (s.takeEvents cfg a.time) s' ++ uses)

theorem UseRun.play {cfg : L1Config Nat} {n : Nat} {s : CacheL1 Nat} {uses : List (Nat × Nat)}
    (arrivals : List Arrival) (h : UseRun cfg n s uses) :
    Meets (fun _ => True) (fun r => UseRun cfg n r.1 r.2) (play cfg arrivals s uses) := by
  induction arrivals generalizing s uses with
  | nil => exact h
  | cons a rest ih =>
    have added : UseRun cfg n (a.add s) uses := by
      unfold Arrival.add
      split
      · exact .addRep a.time a.lqe h
      · exact .addReq a.time a.lqe h
    unfold CacheL1.play
    dsimp only
    cases step : (a.add s).processEvent cfg a.time with
    | error => trivial
    | ok r => exact ih (.process a.time added step)

def oneSet (alwaysHit : Bool) : L1Config Nat where
  self := 1
  isData := true
  cachel2 := 2
  setLsb := 6
  l2SetLsb := 6
  setLsb_le := le_rfl
  numSets := 1
  numSets_pos := Nat.one_pos
  numBanks := 1
  numBanks_pos := Nat.one_pos
  numPreEntries := 1
  numPreEntries_pos := Nat.one_pos
  l1ToLsuT := 0
  l1ToL2T := 45
  alwaysHit
  usePrefetch := false
  processInterval := 10

def fillOf (time address : Nat) :
    Arrival := ⟨time, .rep, { path := [1, 7], type := .read, address }⟩

def readOf (time address : Nat) : Arrival := ⟨time, .req, { path := [7], type := .read, address }⟩

def readAgain : List Arrival := [fillOf 10 0, fillOf 20 64, readOf 30 0]

def thirdFill : Lqe Nat := { path := [1, 7], type := .read, address := 128 }

end CacheL1

open CacheL1 in
/-- A third line then takes the way of the second one. -/
theorem sets_kept_two_lines :
    ∃ s uses, UseRun (oneSet false) 2 s uses ∧ uses = [(0, 0), (0, 1), (0, 0)] ∧
    CacheL1.SetsKept (oneSet false) 2 s ∧ CacheL2.SetsKept CacheL2.oneLine 1 CacheL2.filled ∧
    LeastRecent (oneSet false) s uses ∧ ∃ s' effects wakeup,
      (s.addRepEvent 40 thirdFill).processEvent (oneSet false) 40 = .ok (s', effects, wakeup) ∧
        fillWay (oneSet false) thirdFill s' = some (0, 1) ∧ evictions effects.calls = [64] := by
  have ends : Meets (fun _ => False) (fun r => r.2 = [(0, 0), (0, 1), (0, 0)] ∧
    Meets (fun _ => False)
      (fun r' => fillWay (oneSet false) thirdFill r'.1 = some (0, 1) ∧
        evictions r'.2.1.calls = [64])
      ((r.1.addRepEvent 40 thirdFill).processEvent (oneSet false) 40))
      (play (oneSet false) readAgain (CacheL1.init (oneSet false) 2) []) := by decide +kernel
  obtain ⟨⟨s, uses⟩, played, listed, ends'⟩ := ends.result
  obtain ⟨⟨s', effects, wakeup⟩, step, way, sent⟩ := ends'.result
  have run : UseRun (oneSet false) 2 s uses := (UseRun.init.play readAgain).of_ok played
  have l2 : CacheL2.Run CacheL2.oneLine 1 CacheL2.filled :=
    .process 20 (.addRep 20 { path := [1, 10, 11], type := .write, address := 64 } .init) rfl
  exact ⟨s, uses, run, listed, (sets_kept 2).1 _ s run.run, (sets_kept 1).2.1 _ _ l2,
    (sets_kept 2).2.2 _ s uses rfl run, s', effects, wakeup, step, way, sent⟩

open CacheL1 in
/-- With `always_hit` the read leaves its way where it is, and the third line takes it. -/
theorem always_hit_out_of_order :
    ∃ s uses, UseRun (oneSet true) 2 s uses ∧ uses = [(0, 0), (0, 1), (0, 0)] ∧
    ¬ LeastRecent (oneSet true) s uses ∧ found (oneSet true) s thirdFill = none ∧
      ∃ s' effects wakeup,
      (s.addRepEvent 40 thirdFill).processEvent (oneSet true) 40 = .ok (s', effects, wakeup) ∧
        fillWay (oneSet true) thirdFill s' = some (0, 0) ∧
          lastUse uses (0, 1) < lastUse uses (0, 0) := by
  have ends : Meets (fun _ => False) (fun r => r.2 = [(0, 0), (0, 1), (0, 0)] ∧
      waysOf 0 (r.1.tags 0) = [(0, 0), (0, 1)] ∧ found (oneSet true) r.1 thirdFill = none ∧
      Meets (fun _ => False) (fun r' => fillWay (oneSet true) thirdFill r'.1 = some (0, 0))
      ((r.1.addRepEvent 40 thirdFill).processEvent (oneSet true) 40))
      (play (oneSet true) readAgain (CacheL1.init (oneSet true) 2) []) := by decide +kernel
  obtain ⟨⟨s, uses⟩, played, listed, order, absent, ends'⟩ := ends.result
  obtain ⟨⟨s', effects, wakeup⟩, step, way⟩ := ends'.result
  have run : UseRun (oneSet true) 2 s uses := (UseRun.init.play readAgain).of_ok played
  dsimp only at listed order
  refine ⟨s, uses, run, listed, fun least => ?_, absent, s', effects, wakeup, step, way, ?_⟩
  · have byUse := least.order 0
    rw [listed, order] at byUse
    unfold ByUse at byUse
    exact absurd byUse (by decide)
  · rw [listed]
    decide

namespace CacheL1

variable {cfg : L1Config C} {t n : Nat} {lqe : Lqe C} {s s' : CacheL1 C} {effects : Effects C}

/-- A line is given up for lack of room: it is counted, and an eviction is sent. -/
def Evicts (s s' : CacheL1 C) (calls : List (Call C)) : Prop :=
  s'.stats.numEvCapacity = s.stats.numEvCapacity + 1 ∧ evictions calls ≠ []

def Nacks (calls : List (Call C)) : Prop := ∃ call ∈ calls, call.lqe.type = .nack

def Full (ways : List L1Entry) : Prop := ∀ e ∈ ways, e.state ≠ .invalid

/-- The way that a fill of an absent line goes to is free. -/
def FirstFree (ways : List L1Entry) : Prop := ∀ e ∈ ways.head?, e.state = .invalid

theorem Filled.freeFirst {e : L1Entry} (filled : Filled cfg t s lqe e s' effects)
    (fill : IsFill lqe.type) (absent : found cfg s lqe = none) :
    (Evicts s s' effects.calls ∨ Nacks effects.calls → Full (s.tags (cfg.setOf lqe.address))) ↔
      FirstFree (s.tags (cfg.setOf lqe.address)) ∨ Full (s.tags (cfg.setOf lqe.address)) := by
  have first : (s.tags (cfg.setOf lqe.address)).head? = some e := by
    rw [List.head?_eq_getElem?, ← filled.entry, absent]
    rfl
  have capacity := filled.capacity
  obtain ⟨answer, type, calls⟩ := filled.calls
  rw [if_pos absent] at calls
  unfold Walk.evictVictim at calls
  by_cases free : e.state = .invalid
  · have quiet : ¬ (Evicts s s' effects.calls ∨ Nacks effects.calls) := by
      rintro (⟨counted, -⟩ | ⟨call, mem, nack⟩)
      · simp [free] at capacity
        omega
      · rw [calls, if_pos free, List.nil_append, List.mem_singleton] at mem
        rw [mem, type] at nack
        rcases fill with fill | fill <;> simp [fill] at nack
    refine iff_of_true (fun h => absurd h quiet) (.inl fun a ha => ?_)
    rw [first] at ha
    cases ha
    exact free
  · have evicts : Evicts s s' effects.calls := by
      refine ⟨by rw [capacity, if_pos ⟨absent, free⟩], fun none => ?_⟩
      rw [calls, if_neg free, evictions_append] at none
      have evicted := (List.append_eq_nil_iff.mp none).1
      split at evicted <;> cases evicted
    have taken : ¬ FirstFree (s.tags (cfg.setOf lqe.address)) := fun free' => free (free' e first)
    rw [or_iff_right taken]
    exact ⟨fun h => h (.inl evicts), fun h _ => h⟩

end CacheL1

namespace CacheL2

variable {cfg : L2Config C} {n : Nat} {lqe : Lqe C} {s s' : CacheL2 C}

def Evicts (s s' : CacheL2 C) (calls : List (Call C)) : Prop :=
  s'.stats.numEvCapacity = s.stats.numEvCapacity + 1 ∧ evictions calls ≠ []

def Nacks (calls : List (Call C)) : Prop := ∃ call ∈ calls, call.lqe.type = .nack

def Full (ways : List (L2Entry C)) : Prop := ∀ e ∈ ways, e.type ≠ .invalid

/-- The first way is free, or it is in a transient state and no cache waits for the answer. -/
def FirstFree (ways : List (L2Entry C)) (lqe : Lqe C) : Prop :=
  ∀ e ∈ ways.head?, e.type = .invalid ∨ transient e.type = true ∧ lqe.path.length ≤ 2

theorem FilledAbsent.freeFirst {victim : L2Entry C} {calls : List (Call C)}
    (h : FilledAbsent cfg s lqe victim s' calls) (inv : EntryInv victim) :
    (Evicts s s' calls ∨ Nacks calls → Full (s.tags (cfg.setOf lqe.address))) ↔
      FirstFree (s.tags (cfg.setOf lqe.address)) lqe ∨ Full (s.tags (cfg.setOf lqe.address)) := by
  obtain ⟨o, -, rfl, stats, outcome⟩ := h.outcome
  have taken : ∀ free : Prop, (victim.type = .invalid ∨ transient victim.type = true ∧
    lqe.path.length ≤ 2 ↔
      free) → (FirstFree (s.tags (cfg.setOf lqe.address)) lqe ↔ free) := fun _ same => by
    unfold FirstFree
    rw [h.first, ← same]
    simp
  cases outcome with
  | bypassed busy keep capacity nack =>
    have valid : victim.type ≠ .invalid := fun invalid => by simp [invalid, transient] at busy
    have uncounted : ¬ Evicts s s' o.calls := fun evicts => by
      have counted := evicts.1
      rw [stats, capacity] at counted
      omega
    rw [or_iff_right uncounted, Nacks, nack, taken (lqe.path.length ≤ 2) (by simp [busy, valid])]
    by_cases waits : 2 < lqe.path.length
    · simp [waits, Nat.not_le.mpr waits]
    · simp [waits, Nat.not_lt.mp waits]
  | free invalid placed capacity nack =>
    have quiet : ¬ (Evicts s s' o.calls ∨ Nacks o.calls) := by
      rintro (⟨counted, -⟩ | ⟨call, mem, type⟩)
      · rw [stats, capacity] at counted
        omega
      · exact nack call mem type
    exact iff_of_true (fun h => absurd h quiet)
      (.inl ((taken True (iff_true_intro (.inl invalid))).mpr trivial))
  | evicted stable valid placed capacity nack named sent =>
    have evicts : Evicts s s' o.calls := ⟨by rw [stats, capacity], sent inv⟩
    rw [taken False (by simp [stable, valid]), false_or]
    exact ⟨fun h => h (.inl evicts), fun h _ => h⟩

end CacheL2

/-- For every fill of an absent line in every run, a line is given up or the fill is refused only
where no way is free, if and only if the first way is free or no way is. -/
theorem fills_free_first_iff [LinearOrder C] (n : Nat) :
    (∀ (cfg : L1Config C) (s s' : CacheL1 C) t lqe rest effects wakeup, CacheL1.Run cfg n s →
      (s.takeEvents cfg t).repQ = lqe :: rest → CacheL1.IsFill lqe.type →
        CacheL1.found cfg s lqe = none →
      s.processEvent cfg t = .ok (s', effects, wakeup) →
      ((CacheL1.Evicts s s' effects.calls ∨ CacheL1.Nacks effects.calls →
          CacheL1.Full (s.tags (cfg.setOf lqe.address))) ↔
        CacheL1.FirstFree (s.tags (cfg.setOf lqe.address)) ∨
          CacheL1.Full (s.tags (cfg.setOf lqe.address)))) ∧
    ∀ (cfg : L2Config C) (s s' : CacheL2 C) t lqe rest effects wakeup, CacheL2.Run cfg n s →
      (s.takeEvents cfg t).repQ = lqe :: rest → CacheL2.IsFill lqe.type →
      CacheL2.found (CacheL2.holdsForReply (cfg.tagOf lqe.address))
        (s.tags (cfg.setOf lqe.address)) = none →
      s.processEvent cfg t = .ok (s', effects, wakeup) →
      ((CacheL2.Evicts s s' effects.calls ∨ CacheL2.Nacks effects.calls →
          CacheL2.Full (s.tags (cfg.setOf lqe.address))) ↔
        CacheL2.FirstFree (s.tags (cfg.setOf lqe.address)) lqe ∨
          CacheL2.Full (s.tags (cfg.setOf lqe.address))) := by
  constructor
  · intro cfg s s' t lqe rest effects wakeup _ front fill absent step
    obtain ⟨e, filled⟩ := (CacheL1.processEvent_fill front fill).of_ok step
    exact filled.freeFirst fill absent
  · intro cfg s s' t lqe rest effects wakeup run front fill absent step
    obtain ⟨victim, filled⟩ := (CacheL2.processEvent_fill front fill absent).of_ok step
    exact filled.freeFirst (CacheL2.run_inv run _ victim (List.mem_of_mem_head? filled.first))

namespace CacheL1

def takenBack : List Arrival :=
    [fillOf 10 0, fillOf 20 64, ⟨30, .rep, { path := [2], type := .evict, address := 64 }⟩]

end CacheL1

open CacheL1 in
/-- A third line then takes the way of the first one, where the other way is free. -/
theorem free_way_left : ∃ s, Run (oneSet false) 2 s ∧ found (oneSet false) s thirdFill = none ∧
    ¬ Full (s.tags 0) ∧ ∃ s' effects wakeup,
      (s.addRepEvent 40 thirdFill).processEvent (oneSet false) 40 = .ok (s', effects, wakeup) ∧
        Evicts s s' effects.calls ∧ evictions effects.calls = [0] := by
  have ends : Meets (fun _ => False) (fun r => found (oneSet false) r.1 thirdFill = none ∧
      r.1.tags 0 = [{ way := 0, tag := 0, state := .exclusive },
        { way := 1, tag := 1, state := .invalid }] ∧
      Meets (fun _ => False) (fun r' => r'.1.stats.numEvCapacity = r.1.stats.numEvCapacity + 1 ∧
        evictions r'.2.1.calls = [0])
          ((r.1.addRepEvent 40 thirdFill).processEvent (oneSet false) 40))
      (play (oneSet false) takenBack (CacheL1.init (oneSet false) 2) []) := by decide +kernel
  obtain ⟨⟨s, uses⟩, played, absent, tags, ends'⟩ := ends.result
  obtain ⟨⟨s', effects, wakeup⟩, step, counted, sent⟩ := ends'.result
  have run : UseRun (oneSet false) 2 s uses := (UseRun.init.play takenBack).of_ok played
  refine ⟨s, run.run, absent, fun full => ?_, s', effects, wakeup, step, ⟨counted, ?_⟩, sent⟩
  · dsimp only at tags
    have valid := full { way := 1, tag := 1, state := .invalid } (by rw [tags]; simp)
    exact valid rfl
  · dsimp only at sent
    rw [sent]
    exact List.cons_ne_nil _ _

open CacheL1 in
/-- Where no line was taken back, the third one may take a way. -/
theorem fills_free_first_third : ∃ s, Run (oneSet false) 2 s ∧ ∃ s' effects wakeup,
    (s.addRepEvent 40 thirdFill).processEvent (oneSet false) 40 = .ok (s', effects, wakeup) ∧
      (Evicts s s' effects.calls ∨ Nacks effects.calls → Full (s.tags 0)) := by
  have ends : Meets (fun _ => False) (fun r => found (oneSet false) r.1 thirdFill = none ∧
      ((r.1.addRepEvent 40 thirdFill).takeEvents (oneSet false) 40).repQ = [thirdFill] ∧
      (r.1.tags 0).all (fun e => e.state ≠ .invalid) ∧
      Meets (fun _ => False) (fun _ => True)
        ((r.1.addRepEvent 40 thirdFill).processEvent (oneSet false) 40))
      (play (oneSet false) readAgain (CacheL1.init (oneSet false) 2) []) := by decide +kernel
  obtain ⟨⟨s, uses⟩, played, absent, front, full, ends'⟩ := ends.result
  obtain ⟨⟨s', effects, wakeup⟩, step, -⟩ := ends'.result
  have run : UseRun (oneSet false) 2 s uses := (UseRun.init.play readAgain).of_ok played
  have full' : Full (s.tags 0) := fun e he => of_decide_eq_true (List.all_eq_true.mp full e he)
  exact ⟨s, run.run, s', effects, wakeup, step,
    ((fills_free_first_iff 2).1 (oneSet false) _ s' 40 thirdFill []
    effects wakeup (.addRep 40 thirdFill run.run) front (.inl rfl) absent step).mpr (.inr full')⟩

end McSim
