import McSim.CacheL2Invariant
import McSim.Lib.SetAssociative

/-! The sets of a second-level cache.
What an event finds keeps its way and its tag, whatever becomes of it. Only a fill brings a new tag:
it takes the first way of the set, unless that one is in a transient state. -/

namespace McSim.CacheL2

open Contract SetAssociative

variable {C : Type}

def reading : Reading (L2Entry C) where
  way := (·.way)
  tag := (·.tag)
  valid e := e.type ≠ .invalid

def IsFill (type : EventType) : Prop := type = .eRd ∨ type = .sRd ∨ type = .write

instance (type : EventType) : Decidable (IsFill type) := inferInstanceAs (Decidable (_ ∨ _))

def InPlace (way : WayUpdate C) : Option (L2Entry C) → Prop
  | none => way = .keep
  | some e => way.Forall fun e' => e'.way = e.way ∧ e'.tag = e.tag

theorem inPlace_keep (found : Option (L2Entry C)) : InPlace .keep found := by
  cases found with
  | none => rfl
  | some e => trivial

section Handlers
variable [LinearOrder C] {cfg : L2Config C} {t set : Nat} {e : L2Entry C}
    {found : Option (L2Entry C)}
  {lqe : Lqe C} {st : L2Stats}

def Stays (found : Option (L2Entry C)) (x : Except Abort (Outcome C)) : Prop :=
  Meets (fun _ => True) (fun o => InPlace o.way found) x

theorem repWriteNd_stays (h : ∀ e ∈ found, e.tag = cfg.tagOf lqe.address) :
    Stays found (repWriteNd cfg t set found lqe st) := by
  unfold Stays repWriteNd
  rw [meets_bind, Lqe.meets_pop]
  refine ⟨fun _ => trivial, fun c path _ => ?_⟩
  split
  · exact .after fun _ => inPlace_keep found
  · rename_i e he
    obtain ⟨rfl, -⟩ := Option.filter_eq_some_iff.mp he
    exact .after fun _ => .after fun _ => ⟨rfl, (h e rfl).symm⟩

def Placed (cfg : L2Config C) (e : L2Entry C) (address : Nat) (way : WayUpdate C) : Prop :=
  way.Forall fun e' => e'.way = e.way ∧ e'.tag = cfg.tagOf address

structure Installed (cfg : L2Config C) (e : L2Entry C) (lqe : Lqe C) (calls : List (Call C))
    (st : L2Stats) (o : Outcome C) : Prop where
  placed : Placed cfg e lqe.address o.way
  calls : ∃ answers, o.calls = calls ++ answers ∧
    ∀ call ∈ answers, call.lqe.type = .read ∨ call.lqe.type = .write
  stats : o.stats = st

omit [LinearOrder C] in
theorem filledAnswer_type (etype : EventType) (lqe : Lqe C) :
    (filledAnswer etype lqe).type = .read ∨ (filledAnswer etype lqe).type = .write := by
  unfold filledAnswer
  dsimp only
  split
  · exact .inr rfl
  · exact .inl rfl

theorem install_installed {etype : EventType} (shared : Bool) (calls : List (Call C)) :
    Meets (fun _ => True) (Installed cfg e lqe calls st)
      (install cfg t etype shared e lqe calls st) := by
  unfold install
  dsimp only
  split
  · refine .after fun top => ⟨⟨rfl, rfl⟩, ⟨_, rfl, fun call mem => ?_⟩, rfl⟩
    rw [List.mem_singleton.mp mem]
    exact filledAnswer_type etype lqe
  · exact ⟨⟨rfl, rfl⟩, ⟨[], (List.append_nil _).symm, fun call mem => nomatch mem⟩, rfl⟩

theorem fillFound_stays {etype : EventType} (lqe : Lqe C) (h : e.tag = cfg.tagOf lqe.address) :
    Stays (some e) (fillFound cfg t set etype e lqe st) := by
  have installed : ∀ (e' : L2Entry C) shared calls st, e'.way = e.way →
      Stays (some e) (install cfg t etype shared e' lqe calls st) :=
        fun e' shared calls st way => by
    refine (install_installed shared calls).mono (fun o installed => ?_) fun _ h => h
    have placed := installed.placed
    unfold Placed at placed
    rw [way, ← h] at placed
    exact placed
  unfold fillFound
  split
  · exact .after fun _ => installed _ _ _ _ rfl
  · split
    · dsimp only
      split
      · exact .after fun _ => trivial
      · trivial
    · exact installed _ _ _ _ rfl

theorem repMToX_stays : Stays found (repMToX cfg t set found lqe st) := by
  unfold Stays repMToX
  rw [meets_bind, Lqe.meets_pop]
  refine ⟨fun _ => trivial, fun c path _ => ?_⟩
  cases found with
  | none => trivial
  | some e =>
    dsimp only
    split
    · exact .after fun _ => .after fun _ => ⟨rfl, rfl⟩
    · split
      · exact .after fun _ => .after fun _ => ⟨rfl, rfl⟩
      · trivial

theorem repEvict_stays : Stays found (repEvict cfg t found lqe st) := by
  unfold Stays repEvict
  cases found with
  | none =>
    dsimp only
    split
    · exact .after fun _ => rfl
    · rfl
  | some e =>
    dsimp only
    split
    · split
      · trivial
      · exact .after fun _ => .after fun _ => ⟨rfl, rfl⟩
    · exact .after fun _ => ⟨rfl, rfl⟩

theorem repDirRd_stays : Stays found (repDirRd cfg t set found lqe st) := by
  unfold Stays repDirRd
  cases found with
  | none => rfl
  | some e =>
    dsimp only
    split
    · trivial
    · split
      · exact .after fun _ => ⟨rfl, rfl⟩
      · exact .after fun _ => ⟨rfl, rfl⟩
      · exact .after fun _ => ⟨rfl, rfl⟩
      · split
        · trivial
        · split
          · trivial
          · exact ⟨rfl, rfl⟩
      · split
        · trivial
        · exact ⟨rfl, rfl⟩
      · split
        · trivial
        · exact ⟨rfl, rfl⟩
      · trivial

omit [LinearOrder C] in
theorem repNack_stays : Meets (fun _ => True) (fun o => InPlace o.way found)
    (repNack cfg t lqe st) := by
  unfold repNack
  refine .after fun lqe => ?_
  split
  · exact .after fun _ => inPlace_keep found
  · exact inPlace_keep found

theorem repToS_stays : Stays found (repToS cfg t found lqe st) := by
  unfold Stays repToS
  cases found with
  | none => rfl
  | some e =>
    dsimp only
    split
    · trivial
    · exact .after fun _ => ⟨rfl, rfl⟩

theorem repInvalidate_stays : Stays found (repInvalidate cfg t set found lqe st) := by
  unfold Stays repInvalidate
  cases found with
  | none => exact .after fun _ => rfl
  | some e =>
    dsimp only
    split
    · trivial
    · split
      · split
        · trivial
        · split
          · trivial
          · exact ⟨rfl, rfl⟩
      · split
        · split
          · trivial
          · exact ⟨rfl, rfl⟩
        · exact .after fun _ => .after fun _ => ⟨rfl, rfl⟩

/-- What a fill of an absent line does with the first way of its set. `waits` tells whether a cache
of the first level waits for the answer. -/
inductive VictimFill (cfg : L2Config C) (set : Nat) (victim : L2Entry C) (address : Nat)
    (waits : Prop) (st : L2Stats) (o : Outcome C) : Prop
  | bypassed (busy : transient victim.type = true) (way : o.way = .keep)
      (capacity : o.stats.numEvCapacity = st.numEvCapacity)
      (nack : (∃ call ∈ o.calls, call.lqe.type = .nack) ↔ waits)
  | free (invalid : victim.type = .invalid) (placed : Placed cfg victim address o.way)
      (capacity : o.stats.numEvCapacity = st.numEvCapacity)
      (nack : ∀ call ∈ o.calls, call.lqe.type ≠ .nack)
  | evicted (stable : transient victim.type = false) (valid : victim.type ≠ .invalid)
      (placed : Placed cfg victim address o.way)
      (capacity : o.stats.numEvCapacity = st.numEvCapacity + 1)
      (nack : ∀ call ∈ o.calls, call.lqe.type ≠ .nack)
      (named : ∀ address ∈ evictions o.calls, address = cfg.addressOf set victim.tag)
      (sent : EntryInv victim → evictions o.calls ≠ [])

omit [LinearOrder C] in
@[simp] theorem lqe_addEventToLL (isData : Bool) : (addEventToLL cfg t lqe isData).lqe = lqe := by
  unfold addEventToLL
  split <;> rfl

omit [LinearOrder C] in
theorem nackRequester_nack : Meets (fun _ => True)
    (fun nack => (∃ call ∈ nack, call.lqe.type = .nack) ↔ 1 < lqe.path.length)
    (nackRequester cfg t lqe) := by
  unfold nackRequester
  split
  · rename_i long
    exact .after fun top => ⟨fun _ => long, fun _ => ⟨_, List.mem_singleton_self _, rfl⟩⟩
  · rename_i short
    exact ⟨fun ⟨_, mem, _⟩ => (nomatch mem), fun long => absurd long short⟩

omit [LinearOrder C] in
theorem fillBypass_bypassed {victim : L2Entry C} (busy : transient victim.type = true) :
    Meets (fun _ => True) (VictimFill cfg set victim lqe.address (1 < lqe.path.length) st)
      (fillBypass cfg t lqe st) := by
  unfold fillBypass
  rw [meets_bind]
  refine nackRequester_nack.mono (fun nack sent => .bypassed busy rfl rfl ?_) fun _ h => h
  rw [← sent]
  constructor
  · rintro ⟨call, mem, type⟩
    rcases List.mem_append.mp mem with mem | mem
    · exact ⟨call, mem, type⟩
    · rw [List.mem_singleton.mp mem, lqe_addEventToLL] at type
      cases type
  · rintro ⟨call, mem, type⟩
    exact ⟨call, List.mem_append_left _ mem, type⟩

def victimCalls (cfg : L2Config C) (t set : Nat) (victim : L2Entry C) (thId : Nat) :
    List (Call C) :=
  (inOrder victim.sharedL1).map (fun c =>
      toL1 cfg t c (Lqe.new cfg.self .evict (cfg.addressOf set victim.tag) thId)) ++
    evictVictim cfg t (cfg.addressOf set victim.tag) thId victim

theorem of_mem_victimCalls {victim : L2Entry C} {thId : Nat} {call : Call C}
    (mem : call ∈ victimCalls cfg t set victim thId) :
    call.lqe.type = .evict ∧ call.lqe.address = cfg.addressOf set victim.tag := by
  rcases List.mem_append.mp mem with mem | mem
  · obtain ⟨c, -, rfl⟩ := List.mem_map.mp mem
    exact ⟨rfl, rfl⟩
  · unfold evictVictim at mem
    split at mem
    · cases mem
    · rw [List.mem_singleton.mp mem, lqe_addEventToLL]
      exact ⟨rfl, rfl⟩

theorem victimCalls_ne_nil (cfg : L2Config C) (t set : Nat) {victim : L2Entry C}
    (inv : EntryInv victim) (thId : Nat) :
    victimCalls cfg t set victim thId ≠ [] := by
  intro empty
  obtain ⟨shared, own⟩ := List.append_eq_nil_iff.mp empty
  unfold evictVictim at own
  split at own
  · rename_i owned
    obtain ⟨c, only, -⟩ := first_of_card (inv.ownerL1 owned).2
    rw [only, inOrder_singleton] at shared
    cases shared
  · cases own

theorem fillVictim_victimFill {etype : EventType} {victim : L2Entry C} (lqe : Lqe C) :
    Meets (fun _ => True) (VictimFill cfg set victim lqe.address (1 < lqe.path.length) st)
      (fillVictim cfg t set etype victim lqe st) := by
  have answer : ∀ {call : Call C}, call.lqe.type = .read ∨ call.lqe.type = .write →
      call.lqe.type ≠ .nack ∧ call.lqe.type ≠ .evict ∧ call.lqe.type ≠ .evictNd := fun type => by
    rcases type with type | type <;> rw [type] <;> decide
  unfold fillVictim
  split
  · rename_i busy
    exact fillBypass_bypassed busy
  · rename_i stable
    split
    · rename_i invalid
      refine (install_installed false []).mono (fun o installed => ?_) fun _ h => h
      obtain ⟨answers, calls, types⟩ := installed.calls
      refine .free invalid installed.placed (by rw [installed.stats]) fun call mem => ?_
      rw [calls] at mem
      exact (answer (types call mem)).1
    · rename_i valid
      show Meets _ _ (install cfg t etype false _ lqe (victimCalls cfg t set victim lqe.thId) _)
      refine (install_installed false _).mono (fun o installed => ?_) fun _ h => h
      obtain ⟨answers, calls, types⟩ := installed.calls
      refine .evicted (Bool.eq_false_iff.mpr stable) valid installed.placed
        (by rw [installed.stats]; rfl)
        (fun call mem => ?_) (fun address mem => ?_) fun inv none => ?_
      · rw [calls] at mem
        rcases List.mem_append.mp mem with mem | mem
        · rw [(of_mem_victimCalls mem).1]
          decide
        · exact (answer (types call mem)).1
      · obtain ⟨call, hc, evict, same⟩ := mem_evictions.mp mem
        rw [calls] at hc
        rcases List.mem_append.mp hc with hc | hc
        · exact same ▸ (of_mem_victimCalls hc).2
        · have other := (answer (types call hc)).2
          exact absurd evict (not_or.mpr other)
      · obtain ⟨call, mem⟩ := List.exists_mem_of_ne_nil _
          (victimCalls_ne_nil cfg t set inv lqe.thId)
        have evict := mem_evictions.mpr ⟨call, calls ▸ List.mem_append_left _ mem,
          .inl (of_mem_victimCalls mem).1, rfl⟩
        rw [none] at evict
        cases evict

theorem repFill_absent {victim : L2Entry C} : Meets (fun _ => True)
    (VictimFill cfg set victim lqe.address (2 < lqe.path.length) st)
    (repFill cfg t set none victim lqe st) := by
  unfold repFill
  rw [meets_bind, Lqe.meets_pop]
  refine ⟨fun _ => trivial, fun c path hp => ?_⟩
  have waits : (1 < path.length) = (2 < lqe.path.length) := by
    rw [hp, List.length_cons]
    exact propext (by omega)
  rw [← waits]
  exact fillVictim_victimFill { lqe with path }

theorem reply_stays {victim : L2Entry C} (h : ∀ e ∈ found, e.tag = cfg.tagOf lqe.address)
    (other : IsFill lqe.type → found ≠ none) :
      Stays found (reply cfg t set found victim lqe st) := by
  have filled : IsFill lqe.type → Stays found (repFill cfg t set found victim lqe st) :=
    fun fill => by
    cases found with
    | none => exact absurd rfl (other fill)
    | some e =>
      unfold Stays repFill
      rw [meets_bind, Lqe.meets_pop]
      exact ⟨fun _ => trivial, fun c path _ => fillFound_stays { lqe with path } (h e rfl)⟩
  unfold reply
  split
  · exact repWriteNd_stays h
  · exact filled (.inl ‹_›)
  · exact filled (.inr (.inl ‹_›))
  · exact filled (.inr (.inr ‹_›))
  · exact repMToX_stays
  · exact repMToX_stays
  · exact repEvict_stays
  · exact repEvict_stays
  · exact repDirRd_stays
  · exact repNack_stays
  · exact repToS_stays
  · exact repToS_stays
  · exact repInvalidate_stays
  · exact repInvalidate_stays
  · exact inPlace_keep found
  · trivial

def StaysReq (found : Option (L2Entry C)) (x : Except Abort (ReqOutcome C)) : Prop :=
  Meets (fun _ => True) (fun r => InPlace r.way found) x

theorem readFound_stays : StaysReq (some e) (readFound cfg t e lqe) := by
  unfold StaysReq readFound
  dsimp only
  split
  · exact .after fun _ => ⟨rfl, rfl⟩
  · split
    · exact .after fun _ => ⟨rfl, rfl⟩
    · split
      · exact .after fun _ => ⟨rfl, rfl⟩
      · split
        · split
          · trivial
          · split
            · refine .after fun top => ?_
              split <;> exact ⟨rfl, rfl⟩
            · exact .after fun _ => ⟨rfl, rfl⟩
        · split
          · exact ⟨rfl, rfl⟩
          · trivial

theorem writeUpgrade_stays : StaysReq (some e) (writeUpgrade cfg t set e lqe) := by
  refine .after fun sole => ?_
  split
  · exact ⟨rfl, rfl⟩
  · refine .after fun _ => ?_
    show InPlace (.set (if e.sharedL1 = ∅ then e else _)) (some e)
    split <;> exact ⟨rfl, rfl⟩

theorem own_stays {e' : L2Entry C} (calls : List (Call C)) (way : e'.way = e.way)
    (tag : e'.tag = e.tag) :
    StaysReq (some e) (own t e' lqe calls) := .after fun _ => ⟨way, tag⟩

theorem writeFound_stays : StaysReq (some e) (writeFound cfg t set e lqe) := by
  unfold writeFound
  dsimp only
  split
  · exact own_stays _ rfl rfl
  · split
    · split
      · trivial
      · split
        · trivial
        · refine .after fun top => ?_
          split
          · exact ⟨rfl, rfl⟩
          · exact own_stays _ rfl rfl
    · split
      · split
        · trivial
        · split
          · exact own_stays _ rfl rfl
          · refine .after fun top => ?_
            split
            · exact own_stays _ rfl rfl
            · exact own_stays _ rfl rfl
      · split
        · exact .after fun _ => own_stays _ rfl rfl
        · split
          · exact ⟨rfl, rfl⟩
          · trivial

theorem readRequest_stays : StaysReq found (readRequest cfg t found lqe) := by
  unfold readRequest
  split
  · exact inPlace_keep none
  · rename_i e
    split
    · exact inPlace_keep (some e)
    · exact readFound_stays

theorem writeRequest_stays : StaysReq found (writeRequest cfg t set found lqe) := by
  unfold writeRequest
  split
  · exact inPlace_keep none
  · split
    · exact writeUpgrade_stays
    · exact writeFound_stays

omit [LinearOrder C] in
theorem dispose_stays {r : ReqOutcome C} (etype : EventType) (h : InPlace r.way found) :
    Stays found (dispose cfg t etype r st) := by
  unfold dispose
  split
  · exact h
  · split
    · exact h
    · split
      · exact .after fun _ => h
      · exact h

theorem request_stays : Stays found (request cfg t set found lqe st) := by
  unfold Stays request
  split
  · rw [meets_bind]
    exact readRequest_stays.mono (fun _ h => dispose_stays _ h) fun _ h => h
  · rw [meets_bind]
    exact writeRequest_stays.mono (fun _ h => dispose_stays _ h) fun _ h => h

end Handlers

section Steps
variable {cfg : L2Config C} {s : CacheL2 C} {n set idx : Nat} {target : L2Entry C} {o : Outcome C}

theorem updateWay_replaced {ways : List (L2Entry C)} {u : WayUpdate C}
    (h : ways[idx]? = some target) {P : L2Entry C → Prop} (hu : u.Forall P) : u = .keep ∨
      ∃ e', P e' ∧ Replaced ways target e' (updateWay ways idx u) := by
  cases u with
  | keep => exact .inl rfl
  | set e' => exact .inr ⟨e', hu, replaced_set h e'⟩
  | touch e' => exact .inr ⟨e', hu, replaced_moved h e'⟩

structure Undisturbed (n : Nat) (s s' : CacheL2 C) : Prop where
  wellFormed : ∀ set, WellFormed reading n (s'.tags set)
  sameTags : ∀ set, SameTags reading (s.tags set) (s'.tags set)

theorem undisturbed_of_tags {s' : CacheL2 C} (wf : ∀ set, WellFormed reading n (s.tags set))
    (same : s'.tags = s.tags) : Undisturbed n s s' := by
  constructor <;> intro set <;> rw [same]
  · exact wf set
  · exact .refl _

theorem apply_other {set' : Nat} (other : set' ≠ set) :
    (s.apply set idx o).1.tags set' = s.tags set' :=
  Function.update_of_ne other ..

theorem apply_here : (s.apply set idx o).1.tags set = updateWay (s.tags set) idx o.way :=
  Function.update_self ..

theorem apply_keep (keep : o.way = .keep) : (s.apply set idx o).1.tags = s.tags := by
  unfold apply
  rw [keep]
  exact Function.update_eq_self ..

theorem apply_inPlace {p : L2Entry C → Bool} (used : ∀ e, p e = true → reading.valid e)
    (ho : InPlace o.way (found p (s.tags set))) (wf : ∀ set, WellFormed reading n (s.tags set)) :
    Undisturbed n s (s.apply set (((s.tags set).findIdx? p).getD 0) o).1 := by
  cases hf : found p (s.tags set) with
  | none =>
    rw [hf] at ho
    exact undisturbed_of_tags wf (apply_keep ho)
  | some e =>
    obtain ⟨idx, hidx, at', hp⟩ := found_eq_some hf
    rw [hf] at ho
    rw [hidx, Option.getD_some]
    rcases updateWay_replaced at' ho with keep | ⟨e', ⟨way, tag⟩, replaced⟩
    · exact undisturbed_of_tags wf (apply_keep keep)
    · have fits : Fits reading (s.tags set) e e' := ⟨way, fun _ => .inl ⟨used e hp, tag⟩⟩
      constructor <;> intro set' <;> by_cases here : set' = set
      · subst here
        rw [apply_here]
        exact (wf set').replaced fits replaced
      · rw [apply_other here]
        exact wf set'
      · subst here
        rw [apply_here]
        exact replaced.sameTags way tag
      · rw [apply_other here]
        exact .refl _

end Steps

section Runs
variable [LinearOrder C] {cfg : L2Config C} {t n : Nat} {s : CacheL2 C} {lqe : Lqe C}

omit [LinearOrder C] in
theorem valid_of_holdsForReply {tag : Nat} {e : L2Entry C} (h : holdsForReply tag e = true) :
    reading.valid e ∧ e.tag = tag := by
  simpa [holdsForReply, reading] using h

omit [LinearOrder C] in
theorem valid_of_holdsForRequest {tag : Nat} {e : L2Entry C} (h : holdsForRequest tag e = true) :
    reading.valid e := by
  simp only [holdsForRequest, decide_eq_true_eq] at h
  exact h.1

theorem processRequest_undisturbed (wf : ∀ set, WellFormed reading n (s.tags set)) :
    Meets (fun _ => True) (fun r => Undisturbed n s r.1) (processRequest cfg t s lqe) := by
  unfold processRequest
  rw [meets_bind]
  refine request_stays.mono (fun o ho => ?_) fun _ h => h
  exact apply_inPlace (fun _ => valid_of_holdsForRequest) ho wf

omit [LinearOrder C] in
theorem Undisturbed.trans {s' s'' : CacheL2 C} (h : Undisturbed n s s')
    (h' : Undisturbed n s' s'') :
    Undisturbed n s s'' := ⟨h'.wellFormed, fun set => (h.sameTags set).trans (h'.sameTags set)⟩

theorem processRequests_undisturbed (requests : List (Lqe C))
    (wf : ∀ set, WellFormed reading n (s.tags set)) :
    Meets (fun _ => True) (fun r => Undisturbed n s r.1) (processRequests cfg t s requests) := by
  induction requests generalizing s with
  | nil => exact undisturbed_of_tags wf rfl
  | cons lqe rest ih =>
    unfold processRequests
    rw [meets_bind]
    refine (processRequest_undisturbed wf).mono (fun r h => ?_) fun _ h => h
    rw [meets_bind]
    exact (ih h.wellFormed).mono (fun _ h' => h.trans h') fun _ h => h

/-- What a fill of an absent line does to the cache. `victim` is the first way of its set. -/
structure FilledAbsent (cfg : L2Config C) (s : CacheL2 C) (lqe : Lqe C) (victim : L2Entry C)
    (s' : CacheL2 C) (calls : List (Call C)) : Prop where
  first : (s.tags (cfg.setOf lqe.address)).head? = some victim
  absent : found (holdsForReply (cfg.tagOf lqe.address)) (s.tags (cfg.setOf lqe.address)) = none
  fill : IsFill lqe.type
  outcome : ∃ o, s'.tags = Function.update s.tags (cfg.setOf lqe.address)
      (updateWay (s.tags (cfg.setOf lqe.address)) 0 o.way) ∧ calls = o.calls ∧ s'.stats = o.stats ∧
    VictimFill cfg (cfg.setOf lqe.address) victim lqe.address (2 < lqe.path.length) s.stats o

omit [LinearOrder C] in
theorem found_eq_none {p : L2Entry C → Bool} {ways : List (L2Entry C)} :
    found p ways = none ↔ ways.findIdx? p = none := by
  constructor
  · intro none
    cases hf : ways.findIdx? p with
    | none => rfl
    | some idx =>
      obtain ⟨hlt, -⟩ := List.findIdx?_eq_some_iff_getElem.mp hf
      simp [found, hf, List.getElem?_eq_getElem hlt] at none
  · intro none
    rw [found, none]
    rfl

omit [LinearOrder C] in
theorem tag_ne_of_absent {ways : List (L2Entry C)} {tag : Nat}
    (absent : found (holdsForReply tag) ways = none) :
    ∀ e ∈ ways, reading.valid e → reading.tag e ≠ tag := fun e he valid same => by
  have no := List.findIdx?_eq_none_iff.mp (found_eq_none.mp absent) e he
  simp only [holdsForReply, decide_eq_false_iff_not] at no
  exact no ⟨valid, same⟩

theorem processReply_fill (fill : IsFill lqe.type)
    (absent : found (holdsForReply (cfg.tagOf lqe.address)) (s.tags (cfg.setOf lqe.address)) =
      none) :
    Meets (fun _ => True) (fun r => ∃ victim, FilledAbsent cfg s lqe victim r.1 r.2.calls)
      (processReply cfg t s lqe) := by
  unfold processReply
  dsimp only
  split
  · trivial
  · rename_i victim hv
    have reply_eq : reply cfg t (cfg.setOf lqe.address) none victim lqe s.stats =
        repFill cfg t (cfg.setOf lqe.address) none victim lqe s.stats := by
      unfold reply
      rcases fill with type | type | type <;> rw [type]
    rw [absent, found_eq_none.mp absent, reply_eq, meets_bind]
    exact repFill_absent.mono (fun o ho => ⟨victim, hv, absent, fill, o, rfl, rfl, rfl, ho⟩)
      fun _ h => h

theorem processReply_sets (wf : ∀ set, WellFormed reading n (s.tags set)) : Meets (fun _ => True)
    (fun r => Undisturbed n s r.1 ∨ ∃ victim, FilledAbsent cfg s lqe victim r.1 r.2.calls)
    (processReply cfg t s lqe) := by
  by_cases absent : IsFill lqe.type ∧
      found (holdsForReply (cfg.tagOf lqe.address)) (s.tags (cfg.setOf lqe.address)) = none
  · exact (processReply_fill absent.1 absent.2).mono (fun _ h => .inr h) fun _ h => h
  · unfold processReply
    dsimp only
    split
    · trivial
    · rw [meets_bind]
      refine (reply_stays (fun e he => ?_) fun fill none => absent ⟨fill, none⟩).mono
        (fun o ho => .inl ?_) fun _ h => h
      · obtain ⟨idx, -, -, hp⟩ := found_eq_some he
        exact (valid_of_holdsForReply hp).2
      · exact apply_inPlace (fun _ hp => (valid_of_holdsForReply hp).1) ho wf

omit [LinearOrder C] in
theorem FilledAbsent.tags {victim : L2Entry C} {s' : CacheL2 C} {calls : List (Call C)}
    (h : FilledAbsent cfg s lqe victim s' calls) : s'.tags = s.tags ∨
      ∃ e', Replaced (s.tags (cfg.setOf lqe.address)) victim e' (s'.tags (cfg.setOf lqe.address)) ∧
        (∀ set ≠ cfg.setOf lqe.address, s'.tags set = s.tags set) ∧
        Fits reading (s.tags (cfg.setOf lqe.address)) victim e' := by
  obtain ⟨o, tags, -, -, outcome⟩ := h.outcome
  have at' : (s.tags (cfg.setOf lqe.address))[0]? = some victim := List.head?_eq_getElem? ▸ h.first
  have kept : o.way = .keep → s'.tags = s.tags := fun keep => by
    rw [tags, keep]
    exact Function.update_eq_self ..
  have placed : Placed cfg victim lqe.address o.way → s'.tags = s.tags ∨
      ∃ e', Replaced (s.tags (cfg.setOf lqe.address)) victim e' (s'.tags (cfg.setOf lqe.address)) ∧
        (∀ set ≠ cfg.setOf lqe.address, s'.tags set = s.tags set) ∧
        Fits reading (s.tags (cfg.setOf lqe.address)) victim e' := fun placed => by
    rcases updateWay_replaced at' placed with keep | ⟨e', ⟨way, tag⟩, replaced⟩
    · exact .inl (kept keep)
    · have fits : Fits reading (s.tags (cfg.setOf lqe.address)) victim e' :=
        ⟨way, fun _ => .inr fun a ha valid same => tag_ne_of_absent h.absent a ha valid
          (same.trans tag)⟩
      refine .inr ⟨e', ?_, fun set other => ?_, fits⟩
      · rw [tags, Function.update_self]
        exact replaced
      · rw [tags, Function.update_of_ne other]
  cases outcome with
  | bypassed busy keep capacity nack => exact .inl (kept keep)
  | free invalid way capacity nack => exact placed way
  | evicted stable valid way capacity nack named sent => exact placed way

omit [LinearOrder C] in
theorem FilledAbsent.evicted {victim : L2Entry C} {s' : CacheL2 C} {calls : List (Call C)}
    (h : FilledAbsent cfg s lqe victim s' calls) (wf : ∀ set, WellFormed reading n (s.tags set))
    {set : Nat} {e : L2Entry C} (evicted : Evicted reading (s.tags set) (s'.tags set) e) :
    set < cfg.numSets ∧ ∀ address ∈ evictions calls, address = cfg.addressOf set e.tag := by
  have gone : s'.tags set ≠ s.tags set := fun same => by
    rw [same] at evicted
    exact SameTags.not_evicted (.refl _) (wf set) evicted
  obtain ⟨o, tags, rfl, -, outcome⟩ := h.outcome
  rcases h.tags with same | ⟨e', replaced, others, fits⟩
  · exact absurd (congrFun same set) gone
  · by_cases here : set = cfg.setOf lqe.address
    · subst here
      obtain ⟨rfl, -⟩ := replaced.evicted (wf _) fits evicted
      refine ⟨Nat.mod_lt _ cfg.numSets_pos, ?_⟩
      cases outcome with
      | bypassed busy keep capacity nack =>
        rw [tags, keep] at gone
        exact absurd (congrFun (Function.update_eq_self ..) _) gone
      | free invalid way capacity nack => exact absurd invalid evicted.valid
      | evicted stable valid way capacity nack named sent => exact named
    · exact absurd (others set here) gone

theorem serve_sets (wf : ∀ set, WellFormed reading n (s.tags set)) : Meets (fun _ => True)
    (fun r => (∀ set, WellFormed reading n (r.1.tags set)) ∧
      ∀ set e, Evicted reading (s.tags set) (r.1.tags set) e →
        set < cfg.numSets ∧ ∀ address ∈ evictions r.2.calls, address = cfg.addressOf set e.tag)
    (serve cfg t s) := by
  have quiet : ∀ {s' : CacheL2 C}, Undisturbed n s s' → ∀ set e,
      ¬ Evicted reading (s.tags set) (s'.tags set) e := fun h set e =>
    (h.sameTags set).not_evicted (wf set)
  unfold serve
  cases s.repQ with
  | cons lqe repQ =>
    let taken : CacheL2 C := { s with repQ }
    have wf' : ∀ set, WellFormed reading n (taken.tags set) := wf
    refine (processReply_sets wf').mono (fun r h => ?_) fun _ h => h
    rcases h with h | ⟨victim, h⟩
    · exact ⟨h.wellFormed, fun set e evicted =>
        absurd evicted (quiet ⟨h.wellFormed, h.sameTags⟩ set e)⟩
    · refine ⟨fun set => ?_, fun set e evicted => h.evicted wf evicted⟩
      rcases h.tags with same | ⟨e', replaced, others, fits⟩
      · rw [same]
        exact wf set
      · by_cases here : set = cfg.setOf lqe.address
        · subst here
          exact (wf _).replaced fits replaced
        · rw [others set here]
          exact wf set
  | nil =>
    dsimp only
    cases s.frontRequests cfg with
    | nil => trivial
    | cons lqe rest =>
      let taken : CacheL2 C := { s with repQ := [], reqQs := fun bank => (s.reqQs bank).tail }
      have wf' : ∀ set, WellFormed reading n (taken.tags set) := wf
      refine (processRequests_undisturbed (lqe :: rest) wf').mono (fun r h => ?_) fun _ h => h
      exact ⟨h.wellFormed, fun set e evicted =>
        absurd evicted (quiet ⟨h.wellFormed, h.sameTags⟩ set e)⟩

/-- A step keeps the sets well formed. Only a fill evicts, and its evictions are for the line that
its way had. -/
theorem processEvent_sets (wf : ∀ set, WellFormed reading n (s.tags set)) : Meets (fun _ => True)
    (fun r => (∀ set, WellFormed reading n (r.1.tags set)) ∧
      ∀ set e, Evicted reading (s.tags set) (r.1.tags set) e →
        set < cfg.numSets ∧ ∀ address ∈ evictions r.2.1.calls, address = cfg.addressOf set e.tag)
    (s.processEvent cfg t) := by
  have wf' : ∀ set, WellFormed reading n ((s.takeEvents cfg t).tags set) := wf
  unfold processEvent
  rw [meets_bind]
  exact serve_sets wf'

theorem Run.wellFormed (h : Run cfg n s) : ∀ set, WellFormed reading n (s.tags set) := by
  induction h with
  | init => exact fun _ => wellFormed_map reading (fun _ => rfl) (fun _ valid => valid rfl) n
  | addReq _ _ _ ih => exact ih
  | addRep _ _ _ ih => exact ih
  | process _ _ step ih => exact ((processEvent_sets ih).of_ok step).1

end Runs
end McSim.CacheL2
