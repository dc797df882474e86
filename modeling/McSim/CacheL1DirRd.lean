import McSim.CacheL1Lines

/-! A directory read that covers several lines.
The first line that is present turns the reply into an eviction for the lines behind it, and for
the line itself if nothing else is found. Only at the last line does this do no harm. -/

namespace McSim.CacheL1

open Contract

variable {C : Type} {cfg : L1Config C} {t : Nat} {lqe : Lqe C} {s : CacheL1 C}

def stateOf (cfg : L1Config C) (s : CacheL1 C) (address : Nat) : Option CoherenceState :=
  ((s.tags (cfg.setOf address)).find? (holds (cfg.tagOf address))).map (·.state)

/-- No line is present that is visited before the last one, and that one, if it is, is modified. -/
def OnlyLast (cfg : L1Config C) (s : CacheL1 C) (address : Nat) : Prop :=
  (∀ index < cfg.numSubLines - 1, stateOf cfg s (cfg.subLine address index) = none) ∧
    ∀ state ∈ stateOf cfg s (cfg.subLine address (cfg.numSubLines - 1)), state = .modified

namespace Walk

variable {w w' : Walk C} {k index : Nat} {e : L1Entry}

structure Searching (cfg : L1Config C) (s : CacheL1 C) (lqe : Lqe C) (k : Nat) (w : Walk C) :
    Prop where
  walked : Walked cfg s lqe k w
  setIt : w.setIt = none
  tags : w.cache.tags = s.tags
  unsent : w.sentToL2 = false

theorem searching_start (cfg : L1Config C) (s : CacheL1 C) (lqe : Lqe C) :
    Searching cfg s lqe 0 { cache := s, lqe } := ⟨walked_start cfg s lqe, rfl, rfl, rfl⟩

theorem visit_dirRd_eq (type : w.lqe.type = .dirRd) :
    w.visit cfg t index = (w.lookAt cfg index).dirRd cfg t index := by
  unfold Walk.visit
  dsimp only [look]
  rw [type]
  rfl

theorem Searching.lookAt (h : Searching cfg s lqe k w) : w.lookAt cfg k =
    w.look (cfg.setOf (cfg.subLine lqe.address k))
      ((s.tags (cfg.setOf (cfg.subLine lqe.address k))).findIdx?
        (holds (cfg.tagOf (cfg.subLine lqe.address k)))) := by
  unfold Walk.lookAt lineAt
  rw [h.tags, h.walked.address]
  rfl

theorem stateOf_eq_none {address : Nat} : stateOf cfg s address = none ↔
    (s.tags (cfg.setOf address)).findIdx? (holds (cfg.tagOf address)) = none := by
  unfold stateOf
  rw [Option.map_eq_none_iff, List.find?_eq_none, List.findIdx?_eq_none_iff]
  simp

theorem stateOf_eq_some {address idx : Nat}
    (found : (s.tags (cfg.setOf address)).findIdx? (holds (cfg.tagOf address)) = some idx)
    (he : (s.tags (cfg.setOf address))[idx]? = some e) : stateOf cfg s address = some e.state := by
  unfold stateOf
  rw [List.find?_eq_bind_findIdx?_getElem?, found, Option.bind_some, he]
  rfl

theorem visit_absent (h : Searching cfg s lqe k w) (hk : k < cfg.numSubLines)
    (type : lqe.type = .dirRd) (absent : stateOf cfg s (cfg.subLine lqe.address k) = none) :
    Meets (fun _ => False) (fun w' => Walked cfg s lqe (k + 1) w' ∧
      (k + 1 < cfg.numSubLines → Searching cfg s lqe (k + 1) w')) (w.visit cfg t k) := by
  have same : w.lookAt cfg k = w := by
    rw [h.lookAt, stateOf_eq_none.mp absent]
    simp [look]
  have none : (w.lookAt cfg k).entry = none := by
    rw [same, entry, h.setIt]
    rfl
  have walked := ((handled_none h.walked hk none).count fun st =>
    { st with numCoherencyAccess := st.numCoherencyAccess + 1 }).deleteAtLast h.walked
  rw [visit_dirRd_eq (h.walked.type.trans type)]
  unfold Walk.dirRd
  dsimp only [count_entry]
  rw [none]
  refine ⟨walked, fun more => ⟨walked, ?_, ?_, ?_⟩⟩
  all_goals
    unfold deleteAtLast
    rw [if_neg fun last => absurd more (by omega), same]
  · exact h.setIt
  · exact h.tags
  · exact h.unsent

/-- What a directory read has found a line for: it was modified, is exclusive now, and the element
is on its way as an eviction. -/
structure Turned (cfg : L1Config C) (s : CacheL1 C) (lqe : Lqe C) (k idx : Nat) (e : L1Entry)
    (w : Walk C) :
    Prop where
  found : (s.tags (cfg.setOf (cfg.subLine lqe.address k))).findIdx?
    (holds (cfg.tagOf (cfg.subLine lqe.address k))) = some idx
  at' : (s.tags (cfg.setOf (cfg.subLine lqe.address k)))[idx]? = some e
  modified : e.state = .modified
  type : w.lqe.type = .evict
  address : w.lqe.address = lqe.address
  setIt : w.setIt = some (cfg.setOf (cfg.subLine lqe.address k), idx)
  tags : w.cache.tags = Function.update s.tags (cfg.setOf (cfg.subLine lqe.address k))
    ((s.tags (cfg.setOf (cfg.subLine lqe.address k))).modify idx fun e =>
      { e with state := .exclusive })
  passed : Passed cfg lqe True w

theorem visit_present (h : Searching cfg s lqe k w) (hk : k < cfg.numSubLines)
    (type : lqe.type = .dirRd) {state : CoherenceState}
    (present : stateOf cfg s (cfg.subLine lqe.address k) = some state) :
    Meets (fun a => a = .fatal ∧ state ≠ .modified) (fun w' => state = .modified ∧
      ∃ idx e, Turned cfg s lqe k idx e w') (w.visit cfg t k) := by
  cases found : (s.tags (cfg.setOf (cfg.subLine lqe.address k))).findIdx?
      (holds (cfg.tagOf (cfg.subLine lqe.address k))) with
  | none =>
    rw [stateOf_eq_none.mpr found] at present
    cases present
  | some idx =>
    obtain ⟨hlt, -, -⟩ := List.findIdx?_eq_some_iff_getElem.mp found
    have he := List.getElem?_eq_getElem hlt
    have looked : w.lookAt cfg k = w.look _ (some idx) := h.lookAt.trans (by rw [found])
    have hs : (w.lookAt cfg k).setIt = some (cfg.setOf (cfg.subLine lqe.address k), idx) := by
      rw [looked]
      rfl
    have tags : (w.lookAt cfg k).cache.tags = s.tags := h.tags
    have entry := entry_eq hs
    rw [tags, he] at entry
    rw [stateOf_eq_some found he] at present
    cases present
    rw [visit_dirRd_eq (h.walked.type.trans type)]
    unfold Walk.dirRd
    dsimp only [count_entry]
    rw [entry]
    dsimp only
    have unsent : ((w.lookAt cfg k).count fun st =>
        { st with numCoherencyAccess := st.numCoherencyAccess + 1 }).sentToL2 = false := h.unsent
    rw [unsent, if_neg (by decide)]
    split
    · rename_i other
      exact ⟨rfl, other⟩
    · rename_i modified
      have modified := not_not.mp modified
      have handled := ((handled_some .exclusive h.walked hk entry
        (by rw [type, modified]; rfl)).countFirst fun st =>
          { st with numCoherencyAccess := st.numCoherencyAccess + 1 }).countFirst fun st =>
          { st with numEvCoherency := st.numEvCoherency + 1 }
      refine ⟨modified, idx, _, found, he, modified, rfl, handled.address, ?_, ?_, ?_⟩
      · exact setState_setIt.trans hs
      · have exclusive : ∀ w₁ : Walk C, w₁.setIt =
          some (cfg.setOf (cfg.subLine lqe.address k), idx) →
            w₁.cache.tags = s.tags → (w₁.setState .exclusive).cache.tags = _ :=
              fun w₁ hs₁ tags₁ => by
          rw [setState_tags hs₁, tags₁]
        exact exclusive (((w.lookAt cfg k).count _).count _) hs tags
      · exact passed_send handled.passed (setState_sentToL2.trans h.unsent) _

theorem Turned.doneFor {idx : Nat} (h : Searching cfg s lqe k w) (last : k + 1 = cfg.numSubLines)
    (type : lqe.type = .dirRd) (turned : Turned cfg s lqe k idx e w') :
    DoneFor cfg s lqe w'.cache w'.effects where
  lines set hset := by
    have before : (List.range k).foldl (fun tags index =>
        ruleLine cfg (rule lqe.type) tags (lineAt cfg lqe index)) s.tags = s.tags :=
      h.walked.tags.symm.trans h.tags
    rw [← foldl_lines hset, ← last, List.range_succ, List.foldl_append, before, turned.tags]
    refine congrFun (((ruleLine_some turned.found).trans ?_).symm) set
    refine congrArg _ (modify_congr turned.at' ?_)
    rw [type, turned.modified]
    rfl
  once := turned.passed.once

/-- A line that is present and should not be invalid is invalid, and the reply is an eviction. -/
structure Spoiled (cfg : L1Config C) (s : CacheL1 C) (lqe : Lqe C) (w : Walk C) : Prop where
  type : w.lqe.type = .evict
  invalid : ∃ set < cfg.numSets, ∃ i e e', (s.tags set)[i]? = some e ∧ e.state ≠ .invalid ∧
    cfg.Covers lqe.address set e.tag ∧ (s.tags set).findIdx? (holds e.tag) = some i ∧
    (w.cache.tags set)[i]? = some e' ∧ e'.state = .invalid

theorem Spoiled.not_doneFor (type : lqe.type = .dirRd) (h : Spoiled cfg s lqe w) :
    ¬ DoneFor cfg s lqe w.cache w.effects := by
  obtain ⟨set, hset, i, e, e', he, valid, covers, first, he', invalid⟩ := h.invalid
  intro done
  have line : (w.cache.tags set)[i]? = _ := congrArg (·[i]?) (done.lines set hset)
  rw [he', getElem?_ruled, he, Option.map_some, if_pos ⟨covers, first⟩, type] at line
  cases line
  revert invalid valid
  cases e.state <;> simp [rule]

theorem found_line {idx index : Nat} (hindex : index < cfg.numSubLines)
    (found : (s.tags (cfg.setOf (cfg.subLine lqe.address index))).findIdx?
      (holds (cfg.tagOf (cfg.subLine lqe.address index))) = some idx) :
    ∃ e, (s.tags (cfg.setOf (cfg.subLine lqe.address index)))[idx]? = some e ∧ e.state ≠ .invalid ∧
      cfg.Covers lqe.address (cfg.setOf (cfg.subLine lqe.address index)) e.tag ∧
      (s.tags (cfg.setOf (cfg.subLine lqe.address index))).findIdx? (holds e.tag) = some idx := by
  obtain ⟨hlt, hp, -⟩ := List.findIdx?_eq_some_iff_getElem.mp found
  obtain ⟨valid, tag⟩ := of_decide_eq_true hp
  refine ⟨_, List.getElem?_eq_getElem hlt, valid, ?_, tag ▸ found⟩
  rw [tag]
  have whole : lineAt cfg lqe index / cfg.numSets * cfg.numSets + lineAt cfg lqe
    index % cfg.numSets =
    lineAt cfg lqe index := Nat.div_add_mod' ..
  have mem : lineAt cfg lqe index ∈ cfg.lines lqe.address :=
    List.mem_map_of_mem (List.mem_range.mpr hindex)
  unfold L1Config.Covers
  rw [← L1Config.mem_lines]
  exact whole ▸ mem

theorem evict_tags : Meets (fun _ => True) (fun w' => w'.lqe.type = w.lqe.type ∧
    ((w.entry = none ∧ w'.cache.tags = w.cache.tags) ∨
      (w.entry.isSome ∧ w'.cache.tags = (w.setState .invalid).cache.tags)))
        (w.evict cfg t index) := by
  unfold Walk.evict
  dsimp only [count_entry]
  cases he : w.entry with
  | none => exact ⟨by simp; rfl, .inl ⟨rfl, by simp; rfl⟩⟩
  | some e =>
    have type : (w.setState .invalid).lqe.type = w.lqe.type := by rw [setState_lqe]
    dsimp only
    rw [count_setState, count_setState]
    split
    · split
      · exact ⟨type, .inr ⟨rfl, rfl⟩⟩
      · unfold giveBack
        rw [meets_bind, Lqe.meets_pop]
        exact ⟨fun _ => trivial, fun c rest hp => ⟨type, .inr ⟨rfl, rfl⟩⟩⟩
    · refine ⟨?_, .inr ⟨rfl, ?_⟩⟩
      · rw [deleteAtLast_lqe]
        exact type
      · rw [deleteAtLast_cache]
        rfl

theorem visit_evict_eq (type : w.lqe.type = .evict) :
    w.visit cfg t index = (w.lookAt cfg index).evict cfg t index := by
  unfold Walk.visit
  dsimp only [look]
  rw [type]
  rfl

theorem setState_invalid {set i : Nat} {e' : L1Entry} (he : (w.cache.tags set)[i]? = some e')
    (invalid : e'.state = .invalid) :
    ∃ e'', ((w.setState .invalid).cache.tags set)[i]? = some e'' ∧ e''.state = .invalid := by
  cases hs : w.setIt with
  | none =>
    refine ⟨e', ?_, invalid⟩
    unfold setState
    rw [hs]
    exact he
  | some p =>
    obtain ⟨set', idx⟩ := p
    rw [setState_tags hs]
    by_cases here : set = set'
    · subst here
      rw [Function.update_self, List.getElem?_modify, he]
      by_cases same : idx = i
      · exact ⟨{ e' with state := .invalid }, by simp [same], rfl⟩
      · exact ⟨e', by simp [same], invalid⟩
    · rw [Function.update_of_ne here]
      exact ⟨e', he, invalid⟩

theorem visit_spoiled (h : Spoiled cfg s lqe w) :
    Meets (fun _ => True) (Spoiled cfg s lqe) (w.visit cfg t index) := by
  rw [visit_evict_eq h.type]
  refine evict_tags.mono (fun w' after => ?_) fun _ h => h
  obtain ⟨set, hset, i, e, e', he, valid, covers, first, he', invalid⟩ := h.invalid
  obtain ⟨type, tags⟩ := after
  rcases tags with ⟨-, tags⟩ | ⟨-, tags⟩
  · exact ⟨type.trans h.type, set, hset, i, e, e', he, valid, covers,
      first, by rw [tags]; exact he', invalid⟩
  · obtain ⟨e'', he'', invalid'⟩ := setState_invalid (w := w.lookAt cfg index) he' invalid
    exact ⟨type.trans h.type, set, hset, i, e, e'', he, valid, covers,
      first, by rw [tags]; exact he'', invalid'⟩

theorem visits_spoiled (indices : List Nat) (h : Spoiled cfg s lqe w) :
    Meets (fun _ => True) (Spoiled cfg s lqe) (w.visits cfg t indices) := by
  induction indices generalizing w with
  | nil => exact h
  | cons index rest ih =>
    unfold visits
    rw [meets_bind]
    exact (visit_spoiled h).mono (fun w' h' => ih h') fun _ h => h

theorem Turned.same {idx : Nat} (turned : Turned cfg s lqe k idx e w) (set tag : Nat) :
    (w.cache.tags set).findIdx? (holds tag) = (s.tags set).findIdx? (holds tag) := by
  rw [turned.tags]
  by_cases here : set = cfg.setOf (cfg.subLine lqe.address k)
  · subst here
    rw [Function.update_self]
    refine findIdx?_congr (List.ext_getElem? fun i => ?_)
    rw [List.getElem?_map, List.getElem?_map, List.getElem?_modify]
    by_cases at' : idx = i
    · subst at'
      rw [turned.at']
      simp [holds, turned.modified]
    · simp [at']
  · rw [Function.update_of_ne here]

theorem Turned.spoils {idx : Nat} (turned : Turned cfg s lqe k idx e w)
    (hk : k + 1 < cfg.numSubLines) :
    Meets (fun _ => True) (Spoiled cfg s lqe) (w.visit cfg t (k + 1)) := by
  have spoils : ∀ index < cfg.numSubLines, ∀ i,
      (s.tags (cfg.setOf (cfg.subLine lqe.address index))).findIdx?
        (holds (cfg.tagOf (cfg.subLine lqe.address index))) = some i →
      (w.lookAt cfg (k + 1)).setIt = some (cfg.setOf (cfg.subLine lqe.address index), i) →
      Meets (fun _ => True) (Spoiled cfg s lqe) (w.visit cfg t (k + 1)) := by
    intro index hindex i found hs
    obtain ⟨e, he, valid, covers, first⟩ := found_line hindex found
    have length : ∀ set, (w.cache.tags set).length = (s.tags set).length := fun set => by
      rw [turned.tags]
      by_cases here : set = cfg.setOf (cfg.subLine lqe.address k)
      · rw [here, Function.update_self, List.length_modify]
      · rw [Function.update_of_ne here]
    have hlt : i < (w.cache.tags (cfg.setOf (cfg.subLine lqe.address index))).length := by
      rw [length]
      exact (List.getElem?_eq_some_iff.mp he).1
    have entry : (w.lookAt cfg (k + 1)).entry = some _ :=
      (entry_eq hs).trans (List.getElem?_eq_getElem hlt)
    rw [visit_evict_eq turned.type]
    refine evict_tags.mono (fun w' after => ?_) fun _ h => h
    obtain ⟨type, ⟨none, -⟩ | ⟨-, tags⟩⟩ := after
    · rw [entry] at none
      cases none
    · refine ⟨type.trans turned.type, cfg.setOf (cfg.subLine lqe.address index),
        Nat.mod_lt _ cfg.numSets_pos, i, e,
        { (w.cache.tags (cfg.setOf (cfg.subLine lqe.address index)))[i] with state := .invalid },
        he, valid, covers, first, ?_, rfl⟩
      have looked : (w.lookAt cfg (k + 1)).cache.tags = w.cache.tags := rfl
      rw [tags, setState_tags hs, Function.update_self, List.getElem?_modify, looked,
        List.getElem?_eq_getElem hlt]
      simp
  have line : lineAt cfg w.lqe (k + 1) = lineAt cfg lqe (k + 1) := by
    rw [lineAt, turned.address, lineAt]
  cases found : (s.tags (cfg.setOf (cfg.subLine lqe.address (k + 1)))).findIdx?
      (holds (cfg.tagOf (cfg.subLine lqe.address (k + 1)))) with
  | none =>
    refine spoils k (by omega) idx turned.found ?_
    have absent : (w.cache.tags (lineAt cfg lqe (k + 1) % cfg.numSets)).findIdx?
        (holds (lineAt cfg lqe (k + 1) / cfg.numSets)) = none := (turned.same _ _).trans found
    unfold Walk.lookAt
    rw [line, absent]
    exact turned.setIt
  | some i =>
    refine spoils (k + 1) hk i found ?_
    have present : (w.cache.tags (lineAt cfg lqe (k + 1) % cfg.numSets)).findIdx?
        (holds (lineAt cfg lqe (k + 1) / cfg.numSets)) = some i := (turned.same _ _).trans found
    unfold Walk.lookAt
    rw [line, present]
    rfl

theorem visits_append (a b : List Nat) (w : Walk C) :
    visits cfg t (a ++ b) w = visits cfg t a w >>= visits cfg t b := by
  induction a generalizing w with
  | nil => rfl
  | cons index a ih =>
    rw [List.cons_append]
    unfold visits
    rw [bind_assoc]
    exact congrArg _ (funext ih)

theorem visits_searching (type : lqe.type = .dirRd) {k : Nat} (hk : k < cfg.numSubLines)
    (absent : ∀ index < k, stateOf cfg s (cfg.subLine lqe.address index) = none) :
    Meets (fun _ => False) (Searching cfg s lqe k)
      (visits cfg t (List.range k) { cache := s, lqe }) := by
  induction k with
  | zero => exact searching_start cfg s lqe
  | succ k ih =>
    rw [List.range_succ, visits_append, meets_bind]
    refine (ih (by omega) fun index hi => absent index (by omega)).mono (fun w h => ?_) fun _ h => h
    unfold visits
    rw [meets_bind]
    exact (visit_absent h (by omega) type (absent k (by omega))).mono (fun w' h' => h'.2 hk)
      fun _ h => h

theorem visits_onlyLast (type : lqe.type = .dirRd) (only : OnlyLast cfg s lqe.address) :
    Meets (fun _ => False) (fun w => DoneFor cfg s lqe w.cache w.effects)
      (visits cfg t (List.range cfg.numSubLines) { cache := s, lqe }) := by
  obtain ⟨m, hm⟩ := Nat.exists_eq_add_one_of_ne_zero cfg.numSubLines_pos.ne'
  have hm' : cfg.numSubLines - 1 = m := by omega
  obtain ⟨absent, last⟩ := only
  rw [hm'] at absent last
  rw [hm, List.range_succ, visits_append, meets_bind]
  refine (visits_searching type (by omega) absent).mono (fun w h => ?_) fun _ h => h
  unfold visits
  rw [meets_bind]
  cases present : stateOf cfg s (cfg.subLine lqe.address m) with
  | none =>
    refine (visit_absent h (by omega) type present).mono (fun w' h' => ?_) fun _ h => h
    have walked := h'.1
    rw [← hm] at walked
    exact walked.doneFor
  | some state =>
    refine (visit_present h (by omega) type present).mono (fun w' h' => ?_) fun a ha => ?_
    · obtain ⟨-, idx, e, turned⟩ := h'
      exact turned.doneFor h hm.symm type
    · exact ha.2 (last state present)

/-- A walk that is done right has met only the last line. The lines are split at the first one that
is present. -/
theorem visits_doneFor (type : lqe.type = .dirRd) :
    Meets (fun _ => True) (fun w => DoneFor cfg s lqe w.cache w.effects →
      OnlyLast cfg s lqe.address)
      (visits cfg t (List.range cfg.numSubLines) { cache := s, lqe }) := by
  by_cases any : ∃ index, index < cfg.numSubLines ∧
    stateOf cfg s (cfg.subLine lqe.address index) ≠ none
  · obtain ⟨hj, present⟩ := Nat.find_spec any
    have absent : ∀ index < Nat.find any, stateOf cfg s (cfg.subLine lqe.address index) = none :=
      fun index hi => by
        by_contra found
        exact Nat.find_min any hi ⟨by omega, found⟩
    generalize Nat.find any = j at hj present absent
    obtain ⟨state, present⟩ := Option.ne_none_iff_exists'.mp present
    obtain ⟨rest, hrest⟩ := Nat.exists_eq_add_of_lt hj
    have split : List.range cfg.numSubLines = List.range j ++ j :: List.range' (j + 1) rest := by
      rw [hrest, List.range_eq_range', List.range_eq_range', ← List.range'_succ, Nat.add_assoc,
        ← List.range'_append_1, Nat.zero_add]
    rw [split, visits_append, meets_bind]
    refine (visits_searching type hj absent).mono (fun w h => ?_) fun _ _ => trivial
    unfold visits
    rw [meets_bind]
    refine (visit_present h hj type present).mono (fun w' h' => ?_) fun _ _ => trivial
    obtain ⟨modified, idx, e, turned⟩ := h'
    cases rest with
    | zero =>
      refine fun _ => ⟨fun index hi => absent index (by omega), fun state' hs => ?_⟩
      rw [show cfg.numSubLines - 1 = j by omega, present] at hs
      cases hs
      exact modified
    | succ rest =>
      rw [List.range'_succ]
      unfold visits
      rw [meets_bind]
      refine (turned.spoils (by omega)).mono (fun w'' spoiled => ?_) fun _ _ => trivial
      refine (visits_spoiled _ spoiled).mono (fun w₃ spoiled' => ?_) fun _ _ => trivial
      exact fun done => absurd done (spoiled'.not_doneFor type)
  · have none : ∀ index < cfg.numSubLines, stateOf cfg s (cfg.subLine lqe.address index) = none :=
      fun index hi => by
        by_contra found
        exact any ⟨index, hi, found⟩
    have pos := cfg.numSubLines_pos
    have only : OnlyLast cfg s lqe.address := by
      refine ⟨fun index hi => none index (by omega), fun state hs => ?_⟩
      rw [none _ (by omega)] at hs
      cases hs
    exact (visits_onlyLast type only).mono (fun _ _ _ => only) fun _ _ => trivial

end Walk

/-- A reply is done for all the lines it is for, or else it is a directory read that finds a line
before the last one, or one that is not modified. -/
theorem reply_done_iff
    (type : lqe.type = .evict ∨ lqe.type = .mToM ∨ lqe.type = .mToS ∨ lqe.type = .dirRd)
    (path : lqe.path ≠ []) :
    (∃ r, processReply cfg t s lqe = .ok r ∧ DoneFor cfg s lqe r.1 r.2) ↔
      cfg.l2SetLsb < 31 ∧ (lqe.type = .dirRd → OnlyLast cfg s lqe.address) := by
  unfold processReply
  split
  · rename_i wide
    refine ⟨fun ⟨r, hr, _⟩ => (by cases hr), fun h => absurd h.1 (not_lt.mpr wide)⟩
  · rename_i narrow
    constructor
    · rintro ⟨r, hr, done⟩
      refine ⟨not_le.mp narrow, fun hd => ?_⟩
      cases hv : Walk.visits cfg t (List.range cfg.numSubLines) { cache := s, lqe } with
      | error a => simp [hv, bind, Except.bind] at hr
      | ok w =>
        simp only [hv, bind, Except.bind, pure, Except.pure, Except.ok.injEq] at hr
        subst hr
        exact (Walk.visits_doneFor hd).of_ok hv done
    · rintro ⟨-, only⟩
      have ends : Meets (fun _ => False) (fun w => DoneFor cfg s lqe w.cache w.effects)
          (Walk.visits cfg t (List.range cfg.numSubLines) { cache := s, lqe }) := by
        by_cases hd : lqe.type = .dirRd
        · exact Walk.visits_onlyLast hd (only hd)
        · rw [List.range_eq_range']
          refine (Walk.visits_walked (Walk.walked_start cfg s lqe) (Nat.zero_add _)
            fun k w h hk => ?_).mono
            (fun w h => h.doneFor) fun _ h => h
          rcases type with type | type | type | type
          · exact Walk.visit_evict h hk type path
          · exact Walk.visit_mToX h hk (.inl type) path
          · exact Walk.visit_mToX h hk (.inr type) path
          · exact absurd type hd
      obtain ⟨w, hw, done⟩ := ends.result
      exact ⟨(w.cache, w.effects), by rw [hw]; rfl, done⟩

def pairOfLines : L1Config Nat where
  self := 1
  isData := true
  cachel2 := 2
  setLsb := 6
  l2SetLsb := 7
  setLsb_le := by decide
  numSets := 4
  numSets_pos := by decide
  numBanks := 1
  numBanks_pos := Nat.one_pos
  numPreEntries := 1
  numPreEntries_pos := Nat.one_pos
  l1ToLsuT := 0
  l1ToL2T := 45
  alwaysHit := false
  usePrefetch := false
  processInterval := 10

def dirRdOf (address : Nat) : Lqe Nat := { path := [2], type := .dirRd, address }

def written (address : Nat) : CacheL1 Nat :=
  (init pairOfLines 2).addRepEvent 10 { path := [1, 7], type := .write, address }

/-- The second of two lines is present, and the first is the one of the reply. -/
theorem reply_done_second_line :
    ∃ s, Run pairOfLines 2 s ∧ stateOf pairOfLines s 64 = some .modified ∧
    ∃ r, processReply pairOfLines 20 s (dirRdOf 0) = .ok r ∧
      DoneFor pairOfLines s (dirRdOf 0) r.1 r.2 := by
  have ends : Meets (fun _ => False) (fun r => stateOf pairOfLines r.1 64 = some .modified ∧
      stateOf pairOfLines r.1 0 = none)
        (processEvent pairOfLines 10 (written 64)) := by decide +kernel
  obtain ⟨⟨s, effects, wakeup⟩, hs, second, first⟩ := ends.result
  refine ⟨s, .process 10 (.addRep 10 _ .init) hs, second,
    (reply_done_iff (.inr (.inr (.inr rfl))) (by decide)).mpr
      ⟨by decide, fun _ => ⟨fun index hi => ?_, ?_⟩⟩⟩
  · have zero : index = 0 := Nat.lt_one_iff.mp hi
    rw [zero]
    exact first
  · intro state hstate
    cases second.symm.trans hstate
    rfl

/-- The first of two lines is present: it ends up invalid, and not exclusive. -/
theorem reply_spoils_first_line :
    ∃ s, Run pairOfLines 2 s ∧ stateOf pairOfLines s 0 = some .modified ∧
    ∃ r, processReply pairOfLines 20 s (dirRdOf 0) = .ok r ∧
      ¬ DoneFor pairOfLines s (dirRdOf 0) r.1 r.2 := by
  have ends : Meets (fun _ => False) (fun r => stateOf pairOfLines r.1 0 = some .modified ∧
      ruled (rule .dirRd) (pairOfLines.Covers 0) r.1.tags 0 =
        [{ way := 1 }, { way := 0, tag := 0, state := .exclusive }] ∧
      Meets (fun _ => False)
        (fun r' => r'.1.tags 0 = [{ way := 1 }, { way := 0, tag := 0, state := .invalid }])
        (processReply pairOfLines 20 r.1 (dirRdOf 0)))
          (processEvent pairOfLines 10 (written 0)) := by
    decide +kernel
  obtain ⟨⟨s, effects, wakeup⟩, hs, present, expected, ends'⟩ := ends.result
  obtain ⟨r, hr, tags⟩ := ends'.result
  refine ⟨s, .process 10 (.addRep 10 _ .init) hs, present, r, hr, fun done => ?_⟩
  have line := (tags.symm.trans (done.lines 0 (by decide))).trans expected
  exact absurd line (by decide)

end McSim.CacheL1
