import McSim.CacheL1Lines
import McSim.Lib.SetAssociative

/-! The sets of a first-level cache.
A fill puts its line into the way that has it, or else into the first one of the set. No other
reply moves a way or brings a new tag, and a request moves the way that answers it. -/

namespace McSim.CacheL1

open Contract SetAssociative

variable {C : Type} {cfg : L1Config C} {t : Nat} {lqe : Lqe C} {s s' : CacheL1 C}

def reading : Reading L1Entry where
  way := (·.way)
  tag := (·.tag)
  valid e := e.state ≠ .invalid

def Demotes (s s' : CacheL1 C) : Prop := ∀ set, Demoted reading (s.tags set) (s'.tags set)

theorem demotes_of_tags (same : s'.tags = s.tags) : Demotes s s' := fun set => by
  rw [same]
  exact demoted_refl reading _

theorem demotes_update {set : Nat} {ways : List L1Entry}
    (tags : s'.tags = Function.update s.tags set ways) (h : Demoted reading (s.tags set) ways) :
      Demotes s s' := by
  intro set'
  rw [tags]
  by_cases here : set' = set
  · subst here
    rwa [Function.update_self]
  · rw [Function.update_of_ne here]
    exact demoted_refl reading _

theorem Demotes.trans {s'' : CacheL1 C} (h : Demotes s s') (h' : Demotes s' s'') : Demotes s s'' :=
  fun set => (h set).trans (h' set)

theorem Demotes.meets {x : Except Abort (Walk C)} (h : Demotes s s')
    (hx : Meets (fun _ => True) (fun w => Demotes s' w.cache) x) :
    Meets (fun _ => True) (fun w => Demotes s w.cache) x :=
  hx.mono (fun _ => h.trans) fun _ h => h

def IsFill (type : EventType) : Prop := type = .read ∨ type = .write

instance (type : EventType) : Decidable (IsFill type) := inferInstanceAs (Decidable (_ ∨ _))

theorem not_isFill_evict : ¬ IsFill .evict := by decide

theorem holds_iff {tag : Nat} {e : L1Entry} :
    holds tag e = true ↔ e.state ≠ .invalid ∧ e.tag = tag := by
  simp [holds]

theorem tag_ne_of_absent {ways : List L1Entry} {tag : Nat}
    (absent : ways.findIdx? (holds tag) = none) :
    ∀ e ∈ ways, reading.valid e → reading.tag e ≠ tag := fun e he valid same => by
  have no := List.findIdx?_eq_none_iff.mp absent e he
  rw [holds_iff.mpr ⟨valid, same⟩] at no
  cases no

theorem getElem_of_found {ways : List L1Entry} {tag idx : Nat}
    (found : ways.findIdx? (holds tag) = some idx) :
    ∃ e, ways[idx]? = some e ∧ reading.valid e ∧ e.tag = tag := by
  obtain ⟨hlt, hp, -⟩ := List.findIdx?_eq_some_iff_getElem.mp found
  exact ⟨ways[idx], List.getElem?_eq_getElem hlt, holds_iff.mp hp⟩

namespace Walk

variable {w w' : Walk C} {index : Nat} {state : CoherenceState}

theorem setState_demotes (valid : ∀ e, w.entry = some e → state ≠ .invalid → e.state ≠ .invalid) :
    Demotes w.cache (w.setState state).cache := by
  cases hs : w.setIt with
  | none =>
    unfold setState
    rw [hs]
    exact demotes_of_tags rfl
  | some p =>
    obtain ⟨set, idx⟩ := p
    exact demotes_update (setState_tags hs)
      (demoted_modify fun e he => ⟨rfl, rfl, valid e (entry_eq hs ▸ he)⟩)

theorem giveBack_demotes :
    Meets (fun _ => True) (fun w' => Demotes w.cache w'.cache) (w.giveBack cfg t) := by
  unfold Walk.giveBack
  rw [meets_bind, Lqe.meets_pop]
  exact ⟨fun _ => trivial, fun c path _ => demotes_of_tags rfl⟩

theorem bypass_demotes :
    Meets (fun _ => True) (fun w' => Demotes w.cache w'.cache) (w.bypass cfg t) := by
  unfold bypass
  split
  · exact demotes_of_tags rfl
  · dsimp only
    rw [meets_bind, Lqe.meets_pop]
    exact ⟨fun _ => trivial, fun c path _ => Meets.after fun _ => demotes_of_tags rfl⟩

theorem deleteAtLast_demotes : Demotes w.cache (w.deleteAtLast cfg index).cache :=
  demotes_of_tags (by simp)

theorem count_demotes (f : L1Stats → L1Stats) : Demotes w.cache (w.count f).cache :=
  demotes_of_tags rfl

theorem evict_demotes : Meets (fun _ => True) (fun w' => Demotes w.cache w'.cache)
    (w.evict cfg t index) := by
  unfold Walk.evict
  dsimp only [count_entry]
  cases w.entry with
  | none => exact (count_demotes _).trans deleteAtLast_demotes
  | some e =>
    have given : Demotes w.cache (((w.count fun st =>
        { st with numCoherencyAccess := st.numCoherencyAccess + 1 }).count fun st =>
        { st with numEvCoherency := st.numEvCoherency + 1 }).setState .invalid).cache :=
      ((count_demotes _).trans (count_demotes _)).trans
        (setState_demotes fun _ _ no => absurd rfl no)
    dsimp only
    split
    · split
      · exact given
      · exact given.meets giveBack_demotes
    · exact given.trans deleteAtLast_demotes

theorem mToX_demotes : Meets (fun _ => True) (fun w' => Demotes w.cache w'.cache)
    (w.mToX cfg t) := by
  have finish : ∀ w₁ : Walk C, Demotes w.cache w₁.cache →
      Meets (fun _ => True) (fun w' => Demotes w.cache w'.cache)
        (if w₁.sentToL2 then return w₁ else w₁.giveBack cfg t) := fun w₁ h => by
    split
    · exact h
    · exact h.meets giveBack_demotes
  unfold mToX
  refine finish _ ?_
  dsimp only [count_entry]
  cases he : w.entry with
  | none => exact count_demotes _
  | some e =>
    dsimp only
    split
    · exact count_demotes _
    · rename_i modified
      split
      · exact ((count_demotes _).trans (count_demotes _)).trans
          (setState_demotes fun _ _ no => absurd rfl no)
      · refine (count_demotes _).trans (setState_demotes fun e' he' _ => ?_)
        rw [count_entry, he] at he'
        cases he'
        rw [not_not.mp modified]
        decide

theorem dirRd_demotes : Meets (fun _ => True) (fun w' => Demotes w.cache w'.cache)
    (w.dirRd cfg t index) := by
  unfold Walk.dirRd
  dsimp only [count_entry]
  cases he : w.entry with
  | none => exact (count_demotes _).trans deleteAtLast_demotes
  | some e =>
    dsimp only
    split
    · exact count_demotes _
    · split
      · trivial
      · rename_i modified
        refine ((count_demotes _).trans (count_demotes _)).trans
          (setState_demotes fun e' he' _ => ?_)
        rw [count_entry, count_entry, he] at he'
        cases he'
        rw [not_not.mp modified]
        decide

theorem visit_demotes (no : ¬ IsFill w.lqe.type) :
    Meets (fun _ => True) (fun w' => Demotes w.cache w'.cache) (w.visit cfg t index) := by
  have looked : ∀ set found, Demotes w.cache (w.look set found).cache :=
    fun _ _ => demotes_of_tags rfl
  unfold visit
  dsimp only [look]
  split
  · exact ((looked _ _).trans (count_demotes _)).meets bypass_demotes
  · exact (looked _ _).meets bypass_demotes
  · exact (looked _ _).meets evict_demotes
  · exact (looked _ _).meets mToX_demotes
  · exact (looked _ _).meets mToX_demotes
  · exact (looked _ _).meets dirRd_demotes
  · rename_i type
    exact absurd (.inl type) no
  · rename_i type
    exact absurd (.inr type) no
  · trivial

theorem visits_fill_rest {w : Walk C} (indices : List Nat) (fill : IsFill w.lqe.type)
    (behind : ∀ index ∈ indices, index ≠ 0) : Meets (fun _ => True)
      (fun w' => w'.cache = w.cache ∧ w'.effects = w.effects) (w.visits cfg t indices) := by
  induction indices generalizing w with
  | nil => exact ⟨rfl, rfl⟩
  | cons index rest ih =>
    obtain ⟨here, behind⟩ := List.forall_mem_cons.mp behind
    have visit : ∃ setIt, w.visit cfg t index = .ok { w with setIt } := by
      unfold Walk.visit
      dsimp only [look]
      rcases fill with type | type <;> rw [type] <;> exact ⟨_, if_pos here⟩
    obtain ⟨setIt, visit⟩ := visit
    unfold visits
    rw [visit]
    exact ih (w := { w with setIt }) fill behind

theorem visits_keep {P : Walk C → Prop} (step : ∀ w index, P w → ¬ IsFill w.lqe.type →
      Meets (fun _ => True) P (w.visit cfg t index))
    (indices : List Nat) (behind : ∀ index ∈ indices.tail, index ≠ 0) (h : P w)
    (no : ¬ IsFill w.lqe.type) :
    Meets (fun _ => True) (fun w' => ∃ w₁, P w₁ ∧ w'.cache = w₁.cache ∧ w'.effects = w₁.effects)
      (w.visits cfg t indices) := by
  induction indices generalizing w with
  | nil => exact ⟨w, h, rfl, rfl⟩
  | cons index rest ih =>
    unfold visits
    rw [meets_bind]
    refine (step w index h no).mono (fun w' h' => ?_) fun _ h => h
    by_cases fill : IsFill w'.lqe.type
    · exact (visits_fill_rest rest fill behind).mono (fun _ same => ⟨w', h', same⟩) fun _ h => h
    · exact ih (fun index mem => behind index (List.mem_of_mem_tail mem)) h' fill

end Walk

theorem range_tail_ne_zero (n : Nat) : ∀ index ∈ (List.range n).tail, index ≠ 0 := by
  cases n with
  | zero => exact fun _ h => by cases h
  | succ n =>
    rw [List.range_eq_range', List.range'_succ]
    intro index mem
    have := (List.mem_range'_1.mp mem).1
    omega

theorem processReply_keep {P : Walk C → Prop} (step : ∀ w index, P w → ¬ IsFill w.lqe.type →
      Meets (fun _ => True) P (w.visit cfg t index))
    (start : P { cache := s, lqe }) (no : ¬ IsFill lqe.type) :
    Meets (fun _ => True) (fun r => ∃ w, P w ∧ r = (w.cache, w.effects))
      (processReply cfg t s lqe) := by
  unfold processReply
  split
  · trivial
  · rw [meets_bind]
    refine (Walk.visits_keep (w := { cache := s, lqe }) step _ (range_tail_ne_zero _) start no).mono
      (fun w h => ?_) fun _ h => h
    obtain ⟨w₁, kept, cache, effects⟩ := h
    exact ⟨w₁, kept, by rw [cache, effects]⟩

theorem processReply_first {P : CacheL1 C × Effects C → Prop} (first : Meets (fun _ => True)
      (fun w => IsFill w.lqe.type ∧ P (w.cache, w.effects))
      (Walk.visit cfg t 0 { cache := s, lqe })) :
    Meets (fun _ => True) P (processReply cfg t s lqe) := by
  unfold processReply
  split
  · trivial
  · obtain ⟨behind, count⟩ := Nat.exists_eq_succ_of_ne_zero cfg.numSubLines_pos.ne'
    have rest := range_tail_ne_zero (behind + 1)
    rw [count]
    rw [List.range_eq_range', List.range'_succ] at rest ⊢
    rw [meets_bind]
    unfold Walk.visits
    rw [meets_bind]
    refine first.mono (fun w h => ?_) fun _ h => h
    refine (Walk.visits_fill_rest _ h.1 rest).mono (fun w' same => ?_) fun _ h => h
    rw [← same.1, ← same.2] at h
    exact h.2

def found (cfg : L1Config C) (s : CacheL1 C) (lqe : Lqe C) : Option Nat :=
  (s.tags (cfg.setOf lqe.address)).findIdx? (holds (cfg.tagOf lqe.address))

structure Filled (cfg : L1Config C) (t : Nat) (s : CacheL1 C) (lqe : Lqe C) (e : L1Entry)
    (s' : CacheL1 C) (effects : Effects C) : Prop where
  entry : (s.tags (cfg.setOf lqe.address))[(found cfg s lqe).getD 0]? = some e
  tags : ∃ state, state ≠ .invalid ∧ s'.tags = Function.update s.tags (cfg.setOf lqe.address)
    (touch (s.tags (cfg.setOf lqe.address)) ((found cfg s lqe).getD 0)
      { e with tag := cfg.tagOf lqe.address, state })
  calls : ∃ answer : Call C, answer.lqe.type = lqe.type ∧ effects.calls =
    (if found cfg s lqe = none then Walk.evictVictim cfg t (cfg.setOf lqe.address) lqe.thId e
      else []) ++
      [answer]
  capacity : s'.stats.numEvCapacity = s.stats.numEvCapacity +
    if found cfg s lqe = none ∧ e.state ≠ .invalid then 1 else 0

theorem subLine_zero (cfg : L1Config C) (address : Nat) : cfg.subLine address 0 = address := by
  unfold L1Config.subLine
  rw [Nat.zero_mul, Nat.add_zero, Nat.shiftRight_eq_div_pow, Nat.shiftLeft_eq, Nat.shiftLeft_eq,
    Nat.one_mul, Nat.div_add_mod']

theorem filledState_ne_invalid (etype : EventType) (present : Option L1Entry) :
    Walk.filledState etype present ≠ .invalid := by
  unfold Walk.filledState
  split <;> decide

theorem meets_addEventToLsu (cfg : L1Config C) (t : Nat) (lqe : Lqe C) :
    Meets (fun _ => True) (fun call => call.lqe = lqe) (addEventToLsu cfg t lqe) := by
  unfold addEventToLsu
  rw [meets_bind, Lqe.meets_top]
  exact ⟨fun _ => trivial, fun _ _ _ => rfl⟩

namespace Walk

theorem visit_fill (s : CacheL1 C) (fill : IsFill lqe.type) : Meets (fun _ => True)
    (fun w => IsFill w.lqe.type ∧ ∃ e, Filled cfg t s lqe e w.cache w.effects)
    (Walk.visit cfg t 0 { cache := s, lqe }) := by
  have here : Walk.visit cfg t 0 { cache := s, lqe } =
    (look (cfg.setOf lqe.address) (found cfg s lqe)
      { cache := s, lqe }).fill cfg t (cfg.setOf lqe.address) (cfg.tagOf lqe.address)
        (found cfg s lqe) := by
    unfold Walk.visit
    dsimp only
    rw [subLine_zero]
    rcases fill with type | type <;> simp only [type, look] <;> rfl
  rw [here]
  unfold Walk.fill
  rw [meets_bind, Lqe.meets_pop]
  refine ⟨fun _ => trivial, fun c path _ => ?_⟩
  dsimp only [look]
  split
  · trivial
  · rename_i e he
    rw [meets_bind]
    refine (meets_addEventToLsu cfg t _).mono (fun answer same => ?_) fun _ h => h
    have valid := filledState_ne_invalid lqe.type ((found cfg s lqe).map fun _ => e)
    refine ⟨fill, e, he, ⟨_, valid, ?_⟩, ⟨answer, ?_, ?_⟩, ?_⟩
    · split <;> rfl
    · rw [same]
    · split <;> rfl
    · split <;> simp_all [count, setWays]

end Walk

theorem processReply_fill (fill : IsFill lqe.type) : Meets (fun _ => True)
    (fun r => ∃ e, Filled cfg t s lqe e r.1 r.2) (processReply cfg t s lqe) :=
  processReply_first (Walk.visit_fill s fill)

theorem processReply_demotes (no : ¬ IsFill lqe.type) :
    Meets (fun _ => True) (fun r => Demotes s r.1)
    (processReply cfg t s lqe) := by
  refine (processReply_keep (P := fun w => Demotes s w.cache) (fun w index h no => ?_)
    (demotes_of_tags rfl) no).mono
    (fun r h => ?_) fun _ h => h
  · exact h.meets (Walk.visit_demotes no)
  · obtain ⟨w, kept, rfl⟩ := h
    exact kept

structure Moved (s s' : CacheL1 C) (set idx : Nat) (e e' : L1Entry) : Prop where
  entry : (s.tags set)[idx]? = some e
  way : e'.way = e.way
  tags : s'.tags = Function.update s.tags set (touch (s.tags set) idx e')

section Moves
variable {set idx n : Nat} {e e' : L1Entry}

theorem Moved.replaced (h : Moved s s' set idx e e') :
    Replaced (s.tags set) e e' (s'.tags set) := by
  rw [h.tags, Function.update_self]
  exact replaced_moved h.entry e'

theorem Moved.other (h : Moved s s' set idx e e') {set' : Nat} (other : set' ≠ set) :
    s'.tags set' = s.tags set' := by
  rw [h.tags, Function.update_of_ne other]

theorem Moved.wellFormed (h : Moved s s' set idx e e') (fits : Fits reading (s.tags set) e e')
    (wf : ∀ set, WellFormed reading n (s.tags set)) :
      ∀ set, WellFormed reading n (s'.tags set) := by
  intro set'
  by_cases here : set' = set
  · rw [here]
    exact (wf set).replaced fits h.replaced
  · rw [h.other here]
    exact wf set'

theorem Filled.moved {effects : Effects C} (h : Filled cfg t s lqe e s' effects) :
    ∃ e', Moved s s' (cfg.setOf lqe.address) ((found cfg s lqe).getD 0) e e' ∧
      Fits reading (s.tags (cfg.setOf lqe.address)) e e' ∧ reading.valid e' ∧
        e'.tag = cfg.tagOf lqe.address := by
  obtain ⟨state, valid, tags⟩ := h.tags
  refine ⟨{ e with tag := cfg.tagOf lqe.address, state }, ⟨h.entry, rfl, tags⟩,
    ⟨rfl, fun _ => ?_⟩, valid, rfl⟩
  cases hf : found cfg s lqe with
  | none => exact .inr (tag_ne_of_absent hf)
  | some idx =>
    obtain ⟨e', he', valid', tag⟩ := getElem_of_found hf
    have entry := h.entry
    rw [hf, Option.getD_some, he'] at entry
    cases entry
    exact .inl ⟨valid', tag.symm⟩

end Moves

def answers (etype : EventType) (e : L1Entry) : Bool :=
  if etype = .read then stable e.state else e.state = .modified

/-- The way that a request hits, if any. With `always_hit` every request is answered. -/
def hitWay (cfg : L1Config C) (s : CacheL1 C) (lqe : Lqe C) : Option (Nat × Nat) :=
  ((s.tags (cfg.setOf lqe.address)).find? (holds (cfg.tagOf lqe.address))).bind fun e =>
    if cfg.alwaysHit ∨ answers lqe.type e then some (cfg.setOf lqe.address, e.way) else none

/-- What a request does to the sets: the way that it hits moves, or a line is given up. -/
def Requested (cfg : L1Config C) (s : CacheL1 C) (lqe : Lqe C) (s' : CacheL1 C) : Prop :=
  (Demotes s s' ∧ (cfg.alwaysHit = false → hitWay cfg s lqe = none)) ∨
    ∃ idx e, Moved s s' (cfg.setOf lqe.address) idx e e ∧
      hitWay cfg s lqe = some (cfg.setOf lqe.address, e.way)

theorem lookup_hitWay (s : CacheL1 C) (lqe : Lqe C) (real : cfg.alwaysHit = false) :
    match lookup lqe.type (cfg.tagOf lqe.address) (s.tags (cfg.setOf lqe.address)) with
    | .hit idx e => (s.tags (cfg.setOf lqe.address))[idx]? = some e ∧
        hitWay cfg s lqe = some (cfg.setOf lqe.address, e.way)
    | .upgrade idx e => (s.tags (cfg.setOf lqe.address))[idx]? = some e ∧ hitWay cfg s lqe = none
    | .miss => hitWay cfg s lqe = none := by
  unfold lookup hitWay
  rw [List.find?_eq_bind_findIdx?_getElem?, real]
  cases hf : (s.tags (cfg.setOf lqe.address)).findIdx? (holds (cfg.tagOf lqe.address)) with
  | none => rfl
  | some idx =>
    obtain ⟨e, he, -⟩ := getElem_of_found hf
    simp only [Option.bind_some, he, answers]
    by_cases read : lqe.type = .read
    · by_cases stable : stable e.state = true <;> simp [read, stable, he]
    · by_cases modified : e.state = .modified
      · simp [read, modified, he]
      · by_cases lower : e.state = .shared ∨
          e.state = .exclusive <;> simp [read, modified, lower, he]

theorem access_requested :
    Meets (fun _ => True) (fun r => Requested cfg s lqe r.1) (access cfg t s lqe) := by
  have answered : ∀ {s' : CacheL1 C}, Requested cfg s lqe s' →
      Meets (fun _ => True) (fun r => Requested cfg s lqe r.1)
        (addEventToLsu cfg t lqe >>= fun answer => (return (s', [answer]) : Except Abort _)) :=
    fun h => .after fun _ => h
  unfold access
  dsimp only
  split
  · rename_i always
    exact answered (.inl ⟨demotes_of_tags rfl, fun real => by simp [real] at always⟩)
  · rename_i notAlways
    have looked := lookup_hitWay s lqe (Bool.eq_false_iff.mpr notAlways)
    split
    · rename_i idx e hl
      rw [hl] at looked
      exact answered (.inr ⟨idx, e, ⟨looked.1, rfl, rfl⟩, looked.2⟩)
    · rename_i idx e hl
      rw [hl] at looked
      have gone : Demoted reading (s.tags (cfg.setOf lqe.address))
          ((s.tags (cfg.setOf lqe.address)).set idx { e with state := .invalid }) :=
        demoted_set looked.1 rfl rfl fun valid => valid rfl
      exact .inl ⟨demotes_update rfl gone, fun _ => looked.2⟩
    · rename_i hl
      rw [hl] at looked
      exact .inl ⟨demotes_of_tags rfl, fun _ => looked⟩

theorem markPrefetch_tags {addr : Nat} (h : s.markPrefetch addr = some s') : s'.tags = s.tags := by
  obtain ⟨idx, -, rfl⟩ := Option.map_eq_some_iff.mp h
  rfl

theorem doPrefetch_tags (cfg : L1Config C) (t : Nat) (s : CacheL1 C) (lqe : Lqe C) :
    (s.doPrefetch cfg t lqe).1.tags = s.tags := by
  unfold doPrefetch
  dsimp only
  cases next : s.markPrefetch
    ((lqe.address >>> cfg.setLsb <<< cfg.setLsb + 1 <<< cfg.setLsb) % 2 ^ 64) with
  | some s₁ =>
    have tags := markPrefetch_tags next
    dsimp only
    split
    · exact tags
    · split
      · rename_i prev
        exact (markPrefetch_tags prev).trans tags
      · split <;> exact tags
  | none =>
    dsimp only
    split
    · rfl
    · split
      · rename_i prev
        exact markPrefetch_tags prev
      · split <;> rfl

theorem Requested.of_tags {s'' : CacheL1 C} (h : Requested cfg s lqe s')
    (same : s''.tags = s'.tags) :
    Requested cfg s lqe s'' := by
  rcases h with ⟨demotes, none⟩ | ⟨idx, e, moved, hit⟩
  · exact .inl ⟨fun set => same ▸ demotes set, none⟩
  · exact .inr ⟨idx, e, ⟨moved.entry, moved.way, same.trans moved.tags⟩, hit⟩

theorem processRequest_requested :
    Meets (fun _ => True) (fun r => Requested cfg s lqe r.1) (processRequest cfg t s lqe) := by
  unfold processRequest
  rw [meets_bind]
  refine access_requested.mono (fun r h => ?_) fun _ h => h
  dsimp only
  split
  · exact h.of_tags (doPrefetch_tags ..)
  · exact h

def hits (cfg : L1Config C) (t : Nat) : CacheL1 C → List (Lqe C) → List (Nat × Nat)
  | _, [] => []
  | s, lqe :: rest =>
    match processRequest cfg t s lqe with
    | .error _ => []
    | .ok (s', _) => hits cfg t s' rest ++ (hitWay cfg s lqe).toList

def fillWay (cfg : L1Config C) (lqe : Lqe C) (s' : CacheL1 C) : Option (Nat × Nat) :=
  if IsFill lqe.type then
    ((s'.tags (cfg.setOf lqe.address)).find? (holds (cfg.tagOf lqe.address))).map
      fun e => (cfg.setOf lqe.address, e.way)
  else none

/-- The ways that are hit or filled where `process_event` takes `s` to `s'`, the last one first -/
def used (cfg : L1Config C) (t : Nat) (s s' : CacheL1 C) : List (Nat × Nat) :=
  match s.repQ with
  | lqe :: _ => (fillWay cfg lqe s').toList
  | [] => hits cfg t { s with reqQs := fun bank => (s.reqQs bank).tail } (s.frontRequests cfg)

inductive UseRun (cfg : L1Config C) (numWays : Nat) : CacheL1 C → List (Nat × Nat) → Prop
  | init : UseRun cfg numWays (init cfg numWays) []
  | addReq {s : CacheL1 C} {uses : List (Nat × Nat)} (t : Nat) (lqe : Lqe C) :
      UseRun cfg numWays s uses → UseRun cfg numWays (s.addReqEvent t lqe) uses
  | addRep {s : CacheL1 C} {uses : List (Nat × Nat)} (t : Nat) (lqe : Lqe C) :
      UseRun cfg numWays s uses → UseRun cfg numWays (s.addRepEvent t lqe) uses
  | process {s s' : CacheL1 C} {uses : List (Nat × Nat)} {effects : Effects C}
      {wakeup : Option Nat} (t : Nat) :
      UseRun cfg numWays s uses → s.processEvent cfg t = .ok (s', effects, wakeup) →
      UseRun cfg numWays s' (used cfg t (s.takeEvents cfg t) s' ++ uses)

theorem UseRun.run {numWays : Nat} {uses : List (Nat × Nat)} (h : UseRun cfg numWays s uses) :
    Run cfg numWays s := by
  induction h with
  | init => exact .init
  | addReq t lqe _ ih => exact .addReq t lqe ih
  | addRep t lqe _ ih => exact .addRep t lqe ih
  | process t _ step ih => exact .process t ih step

def waysOf (set : Nat) (ways : List L1Entry) : List (Nat × Nat) := ways.map fun e => (set, e.way)

/-- Every set is well formed, and in the order of use. -/
structure InOrder (cfg : L1Config C) (n : Nat) (s : CacheL1 C) (uses : List (Nat × Nat)) :
    Prop where
  wellFormed : ∀ set, WellFormed reading n (s.tags set)
  byUse : cfg.alwaysHit = false → ∀ set, ByUse uses (waysOf set (s.tags set))

section Uses
variable {n set idx : Nat} {e e' : L1Entry} {uses : List (Nat × Nat)}

theorem waysOf_eq (set : Nat) (ways : List L1Entry) :
    waysOf set ways = (ways.map reading.way).map (Prod.mk set) := by
  rw [List.map_map]
  rfl

theorem waysOf_nodup {ways : List L1Entry} (wf : WellFormed reading n ways) (set : Nat) :
    (waysOf set ways).Nodup := by
  rw [waysOf_eq]
  exact wf.nodup.map (Prod.mk_right_injective set)

theorem Demoted.waysOf {ways ways' : List L1Entry} (h : Demoted reading ways ways') (set : Nat) :
    waysOf set ways' = waysOf set ways := by
  rw [waysOf_eq, waysOf_eq, h.map_way]

theorem Moved.byUse (h : Moved s s' set idx e e') (wf : ∀ set, WellFormed reading n (s.tags set))
    (order : ∀ set, ByUse uses (waysOf set (s.tags set))) (set' : Nat) :
    ByUse ((set, e.way) :: uses) (waysOf set' (s'.tags set')) := by
  by_cases here : set' = set
  · subst here
    have at' : (waysOf set' (s.tags set'))[idx]? = some (set', e.way) := by
      rw [waysOf, List.getElem?_map, h.entry]
      rfl
    have moved := (order set').moved (waysOf_nodup (wf set') set') at'
    rw [h.tags, Function.update_self, touch, waysOf, List.map_append, ← List.eraseIdx_map,
      List.map_singleton, h.way]
    exact moved
  · rw [h.other here]
    refine (order set').other fun mem => ?_
    obtain ⟨a, -, same⟩ := List.mem_map.mp mem
    exact here (Prod.mk.inj same).1

theorem InOrder.demotes (h : InOrder cfg n s uses) (demotes : Demotes s s') :
    InOrder cfg n s' uses where
  wellFormed set := (h.wellFormed set).demoted (demotes set)
  byUse real set := by
    rw [Demoted.waysOf (demotes set)]
    exact h.byUse real set

theorem InOrder.moved (h : InOrder cfg n s uses) (moved : Moved s s' set idx e e')
    (fits : Fits reading (s.tags set) e e') : InOrder cfg n s' ((set, e.way) :: uses) :=
  ⟨moved.wellFormed fits h.wellFormed, fun real => moved.byUse h.wellFormed (h.byUse real)⟩

theorem InOrder.requested (h : InOrder cfg n s uses) (requested : Requested cfg s lqe s') :
    InOrder cfg n s' ((hitWay cfg s lqe).toList ++ uses) := by
  rcases requested with ⟨demotes, none⟩ | ⟨idx, e, moved, hit⟩
  · refine ⟨(h.demotes demotes).wellFormed, fun real => ?_⟩
    rw [none real]
    exact (h.demotes demotes).byUse real
  · rw [hit]
    exact h.moved moved ⟨rfl, fun valid => .inl ⟨valid, rfl⟩⟩

theorem Requested.sameTags (h : Requested cfg s lqe s') (set : Nat) :
    SameTags reading (s.tags set) (s'.tags set) := by
  rcases h with ⟨demotes, -⟩ | ⟨idx, e, moved, -⟩
  · exact (demotes set).sameTags
  · by_cases here : set = cfg.setOf lqe.address
    · subst here
      exact moved.replaced.sameTags rfl rfl
    · rw [moved.other here]
      exact .refl _

theorem processRequests_inOrder (requests : List (Lqe C)) (h : InOrder cfg n s uses) :
    Meets (fun _ => True) (fun r => InOrder cfg n r.1 (hits cfg t s requests ++ uses) ∧
      ∀ set, SameTags reading (s.tags set) (r.1.tags set)) (processRequests cfg t s requests) := by
  induction requests generalizing s uses with
  | nil => exact ⟨h, fun _ => .refl _⟩
  | cons lqe rest ih =>
    unfold processRequests hits
    cases hp : processRequest cfg t s lqe with
    | error => trivial
    | ok r =>
      have requested := processRequest_requested.of_ok hp
      show Meets _ _ (processRequests cfg t r.1 rest >>= _)
      rw [meets_bind]
      refine (ih (h.requested requested)).mono (fun r' h' => ⟨?_, fun set => ?_⟩) fun _ h => h
      · dsimp only
        rw [List.append_assoc]
        exact h'.1
      · exact (requested.sameTags set).trans (h'.2 set)

theorem Filled.fillWay {effects : Effects C} (filled : Filled cfg t s lqe e s' effects)
    (fill : IsFill lqe.type) (wf : ∀ set, WellFormed reading n (s.tags set)) :
    fillWay cfg lqe s' = some (cfg.setOf lqe.address, e.way) := by
  obtain ⟨e', moved, fits, valid, tag⟩ := filled.moved
  have wf' := moved.wellFormed fits wf (cfg.setOf lqe.address)
  unfold CacheL1.fillWay
  rw [if_pos fill]
  cases hf : (s'.tags (cfg.setOf lqe.address)).find? (holds (cfg.tagOf lqe.address)) with
  | none =>
    have no := List.find?_eq_none.mp hf e' moved.replaced.mem_new
    exact absurd (holds_iff.mpr ⟨valid, tag⟩) no
  | some a =>
    obtain ⟨va, tag'⟩ := holds_iff.mp (List.find?_some hf)
    have same : a = e' := wf'.eq_of_tag (List.mem_of_find?_eq_some hf)
      moved.replaced.mem_new va valid
      (tag'.trans tag.symm)
    rw [Option.map_some, same, moved.way]

theorem InOrder.filled {effects : Effects C} (h : InOrder cfg n s uses)
    (filled : Filled cfg t s lqe e s' effects) (fill : IsFill lqe.type) :
    InOrder cfg n s' ((CacheL1.fillWay cfg lqe s').toList ++ uses) := by
  obtain ⟨e', moved, fits, -⟩ := filled.moved
  rw [filled.fillWay fill h.wellFormed]
  exact h.moved moved fits

theorem processReply_inOrder (h : InOrder cfg n s uses) :
    Meets (fun _ => True) (fun r =>
      InOrder cfg n r.1 ((CacheL1.fillWay cfg lqe r.1).toList ++ uses))
      (processReply cfg t s lqe) := by
  by_cases fill : IsFill lqe.type
  · refine (processReply_fill fill).mono (fun r filled => ?_) fun _ h => h
    obtain ⟨e, filled⟩ := filled
    exact h.filled filled fill
  · refine (processReply_demotes fill).mono (fun r demotes => ?_) fun _ h => h
    rw [CacheL1.fillWay, if_neg fill]
    exact h.demotes demotes

theorem serve_inOrder (h : InOrder cfg n s uses) :
    Meets (fun _ => True) (fun r => InOrder cfg n r.1 (used cfg t s r.1 ++ uses))
      (serve cfg t s) := by
  unfold serve used
  cases s.repQ with
  | cons lqe repQ => exact processReply_inOrder ⟨h.wellFormed, h.byUse⟩
  | nil =>
    refine (processRequests_inOrder _ ?_).mono (fun _ h => h.1) fun _ h => h
    exact ⟨h.wellFormed, h.byUse⟩

theorem processEvent_inOrder (h : InOrder cfg n s uses) : Meets (fun _ => True)
    (fun r => InOrder cfg n r.1 (used cfg t (s.takeEvents cfg t) r.1 ++ uses))
    (s.processEvent cfg t) := by
  unfold processEvent
  rw [meets_bind]
  exact serve_inOrder (s := s.takeEvents cfg t) ⟨h.wellFormed, h.byUse⟩

theorem UseRun.inOrder (h : UseRun cfg n s uses) : InOrder cfg n s uses := by
  induction h with
  | init => exact ⟨fun _ => wellFormed_map reading (fun _ => rfl) (fun _ valid => valid rfl) n,
      fun _ _ => byUse_nil _⟩
  | addReq _ _ _ ih => exact ⟨ih.wellFormed, ih.byUse⟩
  | addRep _ _ _ ih => exact ⟨ih.wellFormed, ih.byUse⟩
  | process _ _ step ih => exact (processEvent_inOrder ih).of_ok step

theorem Run.useRun (h : Run cfg n s) : ∃ uses, UseRun cfg n s uses := by
  induction h with
  | init => exact ⟨[], .init⟩
  | addReq t lqe _ ih => exact ⟨ih.choose, .addReq t lqe ih.choose_spec⟩
  | addRep t lqe _ ih => exact ⟨ih.choose, .addRep t lqe ih.choose_spec⟩
  | process t _ step ih => exact ⟨_, .process t ih.choose_spec step⟩

theorem Run.wellFormed (h : Run cfg n s) (set : Nat) : WellFormed reading n (s.tags set) :=
  (UseRun.inOrder h.useRun.choose_spec).wellFormed set

theorem evictVictim_evictions {thId address : Nat}
    (h : address ∈ evictions (Walk.evictVictim cfg t set thId e)) :
    address = cfg.addressOf set e.tag := by
  unfold Walk.evictVictim at h
  split at h
  · cases h
  · obtain ⟨call, mem, -, rfl⟩ := mem_evictions.mp h
    rw [List.mem_singleton.mp mem]
    rfl

theorem processReply_evicted (wf : ∀ set, WellFormed reading n (s.tags set)) :
    Meets (fun _ => True) (fun r => ∀ set e, Evicted reading (s.tags set) (r.1.tags set) e →
      set = cfg.setOf lqe.address ∧
        ∀ address ∈ evictions r.2.calls, address = cfg.addressOf set e.tag)
      (processReply cfg t s lqe) := by
  by_cases fill : IsFill lqe.type
  · refine (processReply_fill fill).mono (fun r filled set e evicted => ?_) fun _ h => h
    obtain ⟨victim, filled⟩ := filled
    obtain ⟨e', moved, fits, valid, tag⟩ := filled.moved
    by_cases here : set = cfg.setOf lqe.address
    · subst here
      obtain ⟨rfl, absent⟩ := moved.replaced.evicted (wf _) fits evicted
      refine ⟨rfl, fun address mem => ?_⟩
      have none : found cfg s lqe = none := by
        refine List.findIdx?_eq_none_iff.mpr fun a ha => Bool.eq_false_iff.mpr fun yes => ?_
        obtain ⟨va, same⟩ := holds_iff.mp yes
        exact absent a ha va (same.trans tag.symm)
      obtain ⟨answer, type, calls⟩ := filled.calls
      rw [calls, if_pos none, evictions_append, List.mem_append] at mem
      rcases mem with mem | mem
      · exact evictVictim_evictions mem
      · obtain ⟨call, hc, evict, -⟩ := mem_evictions.mp mem
        rw [List.mem_singleton.mp hc, type] at evict
        rcases fill with fill | fill <;> simp [fill] at evict
    · rw [moved.other here] at evicted
      exact absurd evicted (SameTags.not_evicted (.refl _) (wf set))
  · refine (processReply_demotes fill).mono (fun r demotes set e evicted => ?_) fun _ h => h
    exact absurd evicted ((demotes set).sameTags.not_evicted (wf set))

theorem serve_evicted (h : InOrder cfg n s uses) :
    Meets (fun _ => True) (fun r => ∀ set e, Evicted reading (s.tags set) (r.1.tags set) e →
      set < cfg.numSets ∧ ∀ address ∈ evictions r.2.calls, address = cfg.addressOf set e.tag)
      (serve cfg t s) := by
  unfold serve
  cases s.repQ with
  | cons lqe repQ =>
    let taken : CacheL1 C := { s with repQ }
    have wf : ∀ set, WellFormed reading n (taken.tags set) := h.wellFormed
    refine (processReply_evicted wf).mono (fun r h set e evicted => ?_) fun _ h => h
    obtain ⟨rfl, named⟩ := h set e evicted
    exact ⟨Nat.mod_lt _ cfg.numSets_pos, named⟩
  | nil =>
    let taken : CacheL1 C := { s with repQ := [], reqQs := fun bank => (s.reqQs bank).tail }
    have order : InOrder cfg n taken uses := ⟨h.wellFormed, h.byUse⟩
    refine (processRequests_inOrder _ order).mono (fun r same set e evicted => ?_) fun _ h => h
    exact absurd evicted ((same.2 set).not_evicted (h.wellFormed set))

theorem processEvent_evicted (h : InOrder cfg n s uses) :
    Meets (fun _ => True) (fun r => ∀ set e, Evicted reading (s.tags set) (r.1.tags set) e →
      set < cfg.numSets ∧ ∀ address ∈ evictions r.2.1.calls, address = cfg.addressOf set e.tag)
      (s.processEvent cfg t) := by
  unfold processEvent
  rw [meets_bind]
  have order : InOrder cfg n (s.takeEvents cfg t) uses := ⟨h.wellFormed, h.byUse⟩
  exact serve_evicted order

end Uses

end McSim.CacheL1
