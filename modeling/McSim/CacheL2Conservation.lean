import McSim.CacheL2Invariant

/-! Where the elements go that enter a second-level cache.
Each call of `add_req_event` or `add_rep_event` stamps its element with a number. An element
is in an event map or a queue, in a `pending` slot, handed to a neighbour, or deleted. Some
branches lose it: the conditions under which none is taken are `ReplyOk` and `RequestOk`. -/

namespace McSim.CacheL2

open Contract

variable {C : Type}

def tally (k : Nat) (l : List (Lqe C)) : Nat := l.countP fun lqe => lqe.serial = some k

@[simp] theorem tally_nil (k : Nat) : tally k ([] : List (Lqe C)) = 0 := rfl

@[simp] theorem tally_append (k : Nat) (a b : List (Lqe C)) :
    tally k (a ++ b) = tally k a + tally k b := List.countP_append

@[simp] theorem tally_cons (k : Nat) (lqe : Lqe C) (l : List (Lqe C)) :
    tally k (lqe :: l) = tally k l + if lqe.serial = some k then 1 else 0 := by
  simp [tally, List.countP_cons]

@[simp] theorem new_serial (c : C) (type : EventType) (address thId : Nat) :
    (Lqe.new c type address thId).serial = none := rfl

def WayUpdate.pending (old : Option (Lqe C)) : WayUpdate C → Option (Lqe C)
  | .keep => old
  | .set e => e.pending
  | .touch e => e.pending

/-- What was in `old` or is `lqe` is handed on, deleted or in the way. -/
def Settled (calls : List (Call C)) (deleted : List (Lqe C)) (way : WayUpdate C)
    (old : Option (Lqe C)) (lqe : Lqe C) : Prop :=
  ∀ k, tally k (calls.map (·.lqe)) + tally k deleted + tally k (way.pending old).toList =
    tally k [lqe] + tally k old.toList

/-- A pending element belongs to the line of its way, and that way is in use. -/
def AtHome (cfg : L2Config C) (set : Nat) (e : L2Entry C) : Prop :=
  ∀ p, e.pending = some p →
    e.type ≠ .invalid ∧ cfg.setOf p.address = set ∧ cfg.tagOf p.address = e.tag

/-- Nothing of a handler's input is lost, and its way stays in order. -/
def Conserves (cfg : L2Config C) (set : Nat) (old : Option (Lqe C)) (lqe : Lqe C)
    (x : Except Abort (Outcome C)) : Prop :=
  Meets (fun _ => True)
    (fun o => Settled o.calls o.deleted o.way old lqe ∧ o.way.Forall (AtHome cfg set)) x

structure Finds (cfg : L2Config C) (set : Nat) (lqe : Lqe C) (e : L2Entry C) : Prop where
  set_eq : cfg.setOf lqe.address = set
  tag_eq : e.tag = cfg.tagOf lqe.address
  used : e.type ≠ .invalid
  home : AtHome cfg set e

/-- A fill does not take a way whose `pending` slot is in use, and one that is turned away names
somebody to answer; a request of the directory finds the slot it needs free. -/
def ReplyOk (found : Option (L2Entry C)) (victim : L2Entry C) (lqe : Lqe C) : Prop :=
  match lqe.type with
  | .eRd | .sRd | .write =>
    found = none → if transient victim.type then lqe.path.length ≠ 1 else victim.pending = none
  | .dirRd => ∀ e, found = some e → e.typeL1L2 = .modified → e.pending = none
  | .invalidate | .invalidateNd => ∀ e, found = some e → e.pending = none
  | _ => True

def passedOn (e : L2Entry C) (lqe : Lqe C) : Prop :=
  lqe.type ≠ .read ∧ e.type = .modified ∧ e.typeL1L2 = .modified ∧
    ∀ top ∈ lqe.path.head?, e.sharedL1 ≠ {top}

def soleUpgrade (e : L2Entry C) (lqe : Lqe C) : Prop :=
  e.type = .exclusive ∧ ∃ top ∈ lqe.path.head?, e.sharedL1 = {top}

/-- A request that is answered here names somebody to answer (a prefetch does not), and an
upgrade that drops the line finds its `pending` slot free. -/
def RequestOk (cfg : L2Config C) (found : Option (L2Entry C)) (lqe : Lqe C) : Prop :=
  match found with
  | none => cfg.alwaysHit = true → 1 < lqe.path.length
  | some e =>
    if lqe.type ≠ .read ∧ (e.type = .exclusive ∨ e.type = .shared) then
      (cfg.alwaysHit = true → 1 < lqe.path.length) ∧
        (¬ soleUpgrade e lqe → e.sharedL1 ≠ ∅ → e.pending = none)
    else ¬ passedOn e lqe → 1 < lqe.path.length

/-- Any abort is fine here: a run that aborts stops. -/
def Ends {α : Type} (post : α → Prop) (x : Except Abort α) : Prop := Meets (fun _ => True) post x

theorem Ends.bind {α β : Type} {mid : β → Prop} {post : α → Prop} {x : Except Abort β}
    {f : β → Except Abort α} (h : Ends mid x) (hf : ∀ b, mid b → Ends post (f b)) :
    Ends post (x >>= f) :=
  meets_bind.mpr (Meets.mono h hf fun _ he => he)

theorem ends_top (lqe : Lqe C) : Ends (fun c => ∃ path, lqe.path = c :: path) lqe.top :=
  Lqe.meets_top.mpr ⟨fun _ => trivial, fun _ path hp => ⟨path, hp⟩⟩

theorem ends_pop (lqe : Lqe C) : Ends (fun lqe' => ∃ c path, lqe.path = c :: path ∧
    lqe' = { lqe with path }) lqe.pop :=
  Lqe.meets_pop.mpr ⟨fun _ => trivial, fun c path hp => ⟨c, path, hp, rfl⟩⟩

@[simp] theorem toL1_lqe (cfg : L2Config C) (t : Nat) (c : C) (lqe : Lqe C) :
    (toL1 cfg t c lqe).lqe = lqe := rfl

@[simp] theorem addEventToLL_lqe (cfg : L2Config C) (t : Nat) (lqe : Lqe C) (isData : Bool) :
    (addEventToLL cfg t lqe isData).lqe = lqe := by
  unfold addEventToLL
  split <;> rfl

section Handlers
variable [LinearOrder C] {cfg : L2Config C} {t set : Nat} {e : L2Entry C} {lqe : Lqe C}
    {st : L2Stats}

theorem ends_addEventToLLTop (isData : Bool) :
    Ends (fun call => call.lqe = lqe) (addEventToLLTop cfg t lqe isData) := by
  refine (ends_top lqe).bind fun top _ => ?_
  change (if top = cfg.directory then viaDirectory cfg t lqe
    else viaCrossbar cfg t lqe isData).lqe = lqe
  split <;> rfl

omit [LinearOrder C] in
theorem tally_evicts (k address : Nat) (cs : List C) :
    tally k ((cs.map fun c => toL1 cfg t c (Lqe.new cfg.self .evict address lqe.thId)).map
      (·.lqe)) =
      0 := by
  induction cs with
  | nil => rfl
  | cons c cs ih => simpa using ih

theorem ends_reqL1Evict (address : Nat) (always : Bool) :
    Ends (fun calls => ∀ k, tally k (calls.map (·.lqe)) = 0)
      (reqL1Evict cfg t e address lqe always) := by
  unfold reqL1Evict
  split
  · exact fun k => tally_evicts k address _
  · split
    · exact fun _ => rfl
    · exact (ends_top lqe).bind fun top _ k => tally_evicts k address _

theorem ends_returnPending :
    Ends (fun calls => calls.map (·.lqe) = e.pending.toList) (returnPending cfg t e) := by
  unfold returnPending
  split
  · rename_i hp
    rw [hp]
    rfl
  · rename_i pending hp
    refine (ends_addEventToLLTop true).bind fun call hc => ?_
    rw [hp]
    exact congrArg (fun l => [l]) hc

omit [LinearOrder C] in
theorem ends_nackRequester (hlen : lqe.path.length ≠ 0) :
    Ends (fun calls => ∀ k, tally k (calls.map (·.lqe)) +
      tally k (if lqe.path.length = 1 then [lqe] else []) = tally k [lqe])
      (nackRequester cfg t lqe) := by
  unfold nackRequester
  by_cases h : lqe.path.length > 1
  · rw [if_pos h]
    refine (ends_top lqe).bind fun top _ => ?_
    simp [Ends, show lqe.path.length ≠ 1 by omega]
  · rw [if_neg h]
    simp [Ends, show lqe.path.length = 1 by omega]

theorem ends_turnAway :
    Ends (fun r => ∀ k, tally k (r.1.map (·.lqe)) + tally k r.2 = tally k [lqe])
      (turnAway cfg t set e lqe) := by
  unfold turnAway
  dsimp only
  split
  · simp [Ends]
  · refine (ends_top lqe).bind fun top _ => ?_
    simp [Ends]
  · refine (ends_top lqe).bind fun top _ => (ends_reqL1Evict _ _).bind fun calls hc k => ?_
    simp [hc k]

theorem repWriteNd_conserves {found : Option (L2Entry C)} {old : Option (Lqe C)}
    (hf : ∀ e, found = some e → Finds cfg set lqe e ∧ old = e.pending) :
    Conserves cfg set old lqe (repWriteNd cfg t set found lqe st) := by
  refine (ends_pop lqe).bind ?_
  rintro _ ⟨c, path, -, rfl⟩
  split
  · refine (ends_top _).bind fun top _ => ⟨fun k => ?_, trivial⟩
    simp [WayUpdate.pending]
  · rename_i e heq
    obtain ⟨heq, -⟩ := Option.filter_eq_some_iff.mp heq
    obtain ⟨finds, rfl⟩ := hf e heq
    refine (ends_reqL1Evict _ _).bind fun calls hc => (ends_top _).bind fun top _ =>
      ⟨fun k => ?_, ?_⟩
    · simp [WayUpdate.pending, hc k]
    · intro p hp
      obtain ⟨-, hset, htag⟩ := finds.home p hp
      exact ⟨by simp, hset, htag.trans finds.tag_eq⟩

theorem install_conserves {etype : EventType} (shared : Bool) {calls : List (Call C)}
    (hc : ∀ k, tally k (calls.map (·.lqe)) = 0)
    (hp : ∀ p, e.pending = some p → cfg.setOf p.address = set ∧
      cfg.tagOf p.address = cfg.tagOf lqe.address)
    (htype : etype = .eRd ∨ etype = .sRd ∨ etype = .write) :
    Conserves cfg set e.pending lqe (install cfg t etype shared e lqe calls st) := by
  have used : filledType etype ≠ .invalid := by
    rcases htype with rfl | rfl | rfl <;> simp [filledType]
  unfold install
  dsimp only
  split
  · refine (ends_top lqe).bind fun top _ => ⟨fun k => ?_, fun p hpe => ⟨used, hp p hpe⟩⟩
    simp [hc k, filledAnswer, WayUpdate.pending]
  · refine ⟨fun k => ?_, fun p hpe => ⟨used, hp p hpe⟩⟩
    simp [hc k, filledAnswer, WayUpdate.pending]

omit [LinearOrder C] in
theorem Conserves.of_serial {old : Option (Lqe C)} (lqe' : Lqe C) {x : Except Abort (Outcome C)}
    (hs : lqe'.serial = lqe.serial) (h : Conserves cfg set old lqe' x) :
      Conserves cfg set old lqe x :=
  Meets.mono h (fun o ho => ⟨fun k => by simpa [hs] using ho.1 k, ho.2⟩) fun _ _ => trivial

omit [LinearOrder C] in
theorem evictVictim_tally (k address thId : Nat) (victim : L2Entry C) :
    tally k ((evictVictim cfg t address thId victim).map (·.lqe)) = 0 := by
  unfold evictVictim
  split <;> simp

theorem fillVictim_conserves {etype : EventType} {victim : L2Entry C}
    (htype : etype = .eRd ∨ etype = .sRd ∨ etype = .write)
    (ok : if transient victim.type then lqe.path.length ≠ 0 else victim.pending = none) :
    Conserves cfg set victim.pending lqe (fillVictim cfg t set etype victim lqe st) := by
  have free : victim.pending = none → ∀ {calls : List (Call C)} {st : L2Stats} {e : L2Entry C},
      e.pending = victim.pending → (∀ k, tally k (calls.map (·.lqe)) = 0) →
      Conserves cfg set victim.pending lqe (install cfg t etype false e lqe calls st) := by
    intro hnone calls st e he hc
    rw [← he]
    exact install_conserves false hc (fun p hp => by simp [he, hnone] at hp) htype
  unfold fillVictim
  split
  · rename_i htr
    rw [if_pos htr] at ok
    refine (ends_nackRequester ok).bind fun calls hc => ⟨fun k => ?_, trivial⟩
    have := hc k
    simp [WayUpdate.pending] at this ⊢
    omega
  · rename_i htr
    rw [if_neg htr] at ok
    split
    · exact free ok rfl fun _ => rfl
    · refine (ends_reqL1Evict _ _).bind fun calls hc => free ok rfl fun k => ?_
      simp [hc k, evictVictim_tally]

theorem fillFound_conserves {etype : EventType} (finds : Finds cfg set lqe e)
    (htype : etype = .eRd ∨ etype = .sRd ∨ etype = .write) :
    Conserves cfg set e.pending lqe (fillFound cfg t set etype e lqe st) := by
  have home : ∀ p, e.pending = some p →
      cfg.setOf p.address = set ∧ cfg.tagOf p.address = cfg.tagOf lqe.address := fun p hp =>
    ⟨(finds.home p hp).2.1, (finds.home p hp).2.2.trans finds.tag_eq⟩
  unfold fillFound
  split
  · refine (ends_reqL1Evict _ _).bind fun calls hc => ?_
    exact install_conserves (e := { e with sharedL1 := ∅ }) false hc home htype
  · split
    · dsimp only
      split
      · refine (ends_top lqe).bind fun top _ => ⟨fun k => ?_, trivial⟩
        simp [WayUpdate.pending]
      · refine ⟨fun k => ?_, trivial⟩
        simp [WayUpdate.pending]
    · exact install_conserves _ (fun _ => rfl) home htype

theorem repFill_conserves {found : Option (L2Entry C)} {victim : L2Entry C}
    (hf : ∀ e, found = some e → Finds cfg set lqe e)
    (htype : lqe.type = .eRd ∨ lqe.type = .sRd ∨ lqe.type = .write)
    (ok : found = none →
      if transient victim.type then lqe.path.length ≠ 1 else victim.pending = none) :
    Conserves cfg set (found.getD victim).pending lqe (repFill cfg t set found victim lqe st) := by
  refine (ends_pop lqe).bind ?_
  rintro _ ⟨c, path, hp, rfl⟩
  cases found with
  | none =>
    refine Conserves.of_serial { lqe with path } rfl (fillVictim_conserves htype ?_)
    simpa [hp] using ok rfl
  | some e =>
    have finds := hf e rfl
    refine Conserves.of_serial { lqe with path } rfl (fillFound_conserves ?_ htype)
    exact ⟨finds.set_eq, finds.tag_eq, finds.used, finds.home⟩

theorem repMToX_conserves {found : Option (L2Entry C)} {old : Option (Lqe C)}
    (hf : ∀ e, found = some e → old = e.pending) :
    Conserves cfg set old lqe (repMToX cfg t set found lqe st) := by
  refine (ends_pop lqe).bind ?_
  rintro _ ⟨c, path, -, rfl⟩
  cases found with
  | none => trivial
  | some e =>
    obtain rfl := hf e rfl
    dsimp only
    split
    · refine ends_turnAway.bind fun r hr => ends_returnPending.bind fun back hb => ⟨fun k => ?_, ?_⟩
      · have := hr k
        simp [WayUpdate.pending, hb] at this ⊢
        omega
      · intro p hp
        cases hp
    · split
      · refine (ends_top _).bind fun top _ => ends_returnPending.bind fun back hb =>
          ⟨fun k => ?_, ?_⟩
        · simp [WayUpdate.pending, hb, returnedAnswer]
          omega
        · intro p hp
          cases hp
      · trivial

theorem repEvict_conserves {found : Option (L2Entry C)} {old : Option (Lqe C)}
    (hf : ∀ e, found = some e → Finds cfg set lqe e ∧ old = e.pending) :
    Conserves cfg set old lqe (repEvict cfg t found lqe st) := by
  unfold repEvict
  cases found with
  | none =>
    dsimp only
    split
    · refine (ends_addEventToLLTop _).bind fun call hc => ⟨fun k => ?_, trivial⟩
      simp [WayUpdate.pending, hc, Lqe.push]
    · refine ⟨fun k => ?_, trivial⟩
      simp [WayUpdate.pending]
  | some e =>
    obtain ⟨finds, rfl⟩ := hf e rfl
    dsimp only
    split
    · split
      · trivial
      · rename_i pending hp
        refine (ends_addEventToLLTop _).bind fun call hc => (ends_top lqe).bind fun top _ =>
          ⟨fun k => ?_, ?_⟩
        · simp [WayUpdate.pending, hc, hp]
          omega
        · intro p hp
          cases hp
    · refine (ends_top lqe).bind fun top _ => ⟨fun k => ?_, finds.home⟩
      simp [WayUpdate.pending]

omit [LinearOrder C] in
theorem atHome_pending (finds : Finds cfg set lqe e) {e' : L2Entry C} (hp : e'.pending = some lqe)
    (hu : e'.type ≠ .invalid) (ht : e'.tag = e.tag) : AtHome cfg set e' := by
  intro p hpe
  cases hp.symm.trans hpe
  exact ⟨hu, finds.set_eq, (ht.trans finds.tag_eq).symm⟩

theorem repDirRd_conserves {found : Option (L2Entry C)} {old : Option (Lqe C)}
    (hf : ∀ e, found = some e → Finds cfg set lqe e ∧ old = e.pending)
    (ok : ∀ e, found = some e → e.typeL1L2 = .modified → e.pending = none) :
    Conserves cfg set old lqe (repDirRd cfg t set found lqe st) := by
  unfold repDirRd
  cases found with
  | none =>
    refine ⟨fun k => ?_, trivial⟩
    simp [WayUpdate.pending]
  | some e =>
    obtain ⟨finds, rfl⟩ := hf e rfl
    have shared : ∀ call : Call C, call.lqe = lqe → Conserves cfg set e.pending lqe (.ok
        { way := .set { e with type := .shared, lastAccessTime := t }, calls := [call]
          stats := { st with numCoherencyAccess := st.numCoherencyAccess + 1 } }) := by
      refine fun call hc => ⟨fun k => ?_, fun p hp => ?_⟩
      · simp [WayUpdate.pending, hc]
      · exact ⟨by simp, (finds.home p hp).2⟩
    have wait : e.pending = none → Conserves cfg set e.pending lqe (.ok
        { way := .set { e with pending := some lqe, lastAccessTime := t }
          stats := { st with numCoherencyAccess := st.numCoherencyAccess + 1 } }) := by
      refine fun hn => ⟨fun k => ?_, atHome_pending finds rfl finds.used rfl⟩
      simp [WayUpdate.pending, hn]
    dsimp only
    split
    · trivial
    · split
      · exact (ends_addEventToLLTop _).bind shared
      · exact (ends_addEventToLLTop _).bind shared
      · exact (ends_addEventToLLTop _).bind shared
      · rename_i hl
        have hn := ok e rfl hl
        split
        · trivial
        · split
          · trivial
          · refine ⟨fun k => ?_, atHome_pending finds rfl (by simp) rfl⟩
            simp [WayUpdate.pending, hn]
      · split
        · trivial
        · exact wait (not_not.mp ‹_›)
      · split
        · trivial
        · exact wait (not_not.mp ‹_›)
      · trivial

omit [LinearOrder C] in
theorem repNack_conserves {old : Option (Lqe C)} :
    Conserves cfg set old lqe (repNack cfg t lqe st) := by
  refine (ends_pop lqe).bind ?_
  rintro _ ⟨c, path, -, rfl⟩
  split
  · refine (ends_top _).bind fun top _ => ⟨fun k => ?_, trivial⟩
    simp [WayUpdate.pending]
  · refine ⟨fun k => ?_, trivial⟩
    simp [WayUpdate.pending]

theorem repToS_conserves {found : Option (L2Entry C)} {old : Option (Lqe C)}
    (hf : ∀ e, found = some e → Finds cfg set lqe e ∧ old = e.pending) :
    Conserves cfg set old lqe (repToS cfg t found lqe st) := by
  unfold repToS
  cases found with
  | none =>
    refine ⟨fun k => ?_, trivial⟩
    simp [WayUpdate.pending]
  | some e =>
    obtain ⟨finds, rfl⟩ := hf e rfl
    dsimp only
    split
    · trivial
    · refine (ends_addEventToLLTop _).bind fun call hc => ⟨fun k => ?_, fun p hp => ?_⟩
      · simp [WayUpdate.pending, hc]
      · exact ⟨by simp, (finds.home p hp).2⟩

theorem repInvalidate_conserves {found : Option (L2Entry C)} {old : Option (Lqe C)}
    (hf : ∀ e, found = some e → Finds cfg set lqe e ∧ old = e.pending)
    (ok : ∀ e, found = some e → e.pending = none) :
    Conserves cfg set old lqe (repInvalidate cfg t set found lqe st) := by
  unfold repInvalidate
  cases found with
  | none =>
    refine (ends_addEventToLLTop _).bind fun call hc => ⟨fun k => ?_, trivial⟩
    simp [WayUpdate.pending, hc]
  | some e =>
    obtain ⟨finds, rfl⟩ := hf e rfl
    have hn := ok e rfl
    dsimp only
    split
    · trivial
    · split
      · split
        · trivial
        · split
          · trivial
          · refine ⟨fun k => ?_, atHome_pending finds rfl (by simp) rfl⟩
            simp [WayUpdate.pending, hn]
      · split
        · split
          · trivial
          · refine ⟨fun k => ?_, atHome_pending finds rfl (by simp) rfl⟩
            simp [WayUpdate.pending, hn]
        · refine (ends_reqL1Evict _ _).bind fun calls hc => (ends_addEventToLLTop _).bind
            fun call hl =>
            ⟨fun k => ?_, fun p hp => ?_⟩
          · simp [WayUpdate.pending, hc k, hl]
          · exact absurd hp (by simp [hn])

theorem reply_conserves {found : Option (L2Entry C)} {victim : L2Entry C}
    (hf : ∀ e, found = some e → Finds cfg set lqe e) (ok : ReplyOk found victim lqe) :
    Conserves cfg set (found.getD victim).pending lqe (reply cfg t set found victim lqe st) := by
  have old : ∀ e, found = some e → (found.getD victim).pending = e.pending := by
    rintro e rfl
    rfl
  have both := fun e he => And.intro (hf e he) (old e he)
  unfold reply
  unfold ReplyOk at ok
  split
  · exact repWriteNd_conserves both
  · rename_i h
    exact repFill_conserves hf (.inl h) (by simpa only [h] using ok)
  · rename_i h
    exact repFill_conserves hf (.inr (.inl h)) (by simpa only [h] using ok)
  · rename_i h
    exact repFill_conserves hf (.inr (.inr h)) (by simpa only [h] using ok)
  · exact repMToX_conserves old
  · exact repMToX_conserves old
  · exact repEvict_conserves both
  · exact repEvict_conserves both
  · rename_i h
    exact repDirRd_conserves both (by simpa only [h] using ok)
  · exact repNack_conserves
  · exact repToS_conserves both
  · exact repToS_conserves both
  · rename_i h
    exact repInvalidate_conserves both (by simpa only [h] using ok)
  · rename_i h
    exact repInvalidate_conserves both (by simpa only [h] using ok)
  · refine ⟨fun k => ?_, trivial⟩
    simp [WayUpdate.pending]
  · trivial

structure ReqSettled (cfg : L2Config C) (set : Nat) (old : Option (Lqe C)) (lqe : Lqe C)
    (r : ReqOutcome C) : Prop where
  calls : ∀ k, tally k (r.calls.map (·.lqe)) = if r.enterIntermediateState then tally k [lqe] else 0
  serial : r.lqe.serial = lqe.serial
  answerable : r.enterIntermediateState = false → r.hit = true → 1 < r.lqe.path.length
  pending : r.way.pending old = old
  home : r.way.Forall (AtHome cfg set)

theorem readFound_settled (finds : Finds cfg set lqe e) (hlen : 1 < lqe.path.length) :
    Ends (ReqSettled cfg set e.pending lqe) (readFound cfg t e lqe) := by
  have hit : ∀ e' : L2Entry C, e'.pending = e.pending → e'.type = e.type → e'.tag = e.tag →
      ReqSettled cfg set e.pending lqe { way := .touch e', lqe, hit := true } := by
    refine fun e' hp ht hg => ⟨by simp, rfl, fun _ _ => hlen, hp, fun p hpe => ?_⟩
    rw [ht, hg]
    exact finds.home p (hp.symm.trans hpe)
  unfold readFound
  dsimp only
  split
  · exact (ends_top lqe).bind fun top _ => hit _ rfl rfl rfl
  · split
    · exact (ends_top lqe).bind fun top _ => hit _ rfl rfl rfl
    · split
      · exact (ends_top lqe).bind fun top _ => hit _ rfl rfl rfl
      · split
        · split
          · trivial
          · split
            · refine (ends_top lqe).bind fun top _ => ?_
              split
              · exact ⟨by simp [forward, Lqe.push], rfl, by simp, rfl, finds.home⟩
              · exact hit _ rfl rfl rfl
            · exact (ends_top lqe).bind fun top _ => hit _ rfl rfl rfl
        · split
          · exact ⟨by simp, rfl, fun _ _ => hlen, rfl, finds.home⟩
          · trivial

theorem readRequest_settled {found : Option (L2Entry C)} {old : Option (Lqe C)}
    (hf : ∀ e, found = some e → Finds cfg set lqe e ∧ old = e.pending)
    (ok : RequestOk cfg found lqe) (hr : lqe.type = .read) :
    Ends (ReqSettled cfg set old lqe) (readRequest cfg t found lqe) := by
  unfold readRequest
  cases found with
  | none => exact ⟨by simp, rfl, fun _ => ok, rfl, trivial⟩
  | some e =>
    obtain ⟨finds, rfl⟩ := hf e rfl
    have hlen : 1 < lqe.path.length := by
      unfold RequestOk at ok
      simp only [hr, ne_eq, not_true_eq_false, false_and, if_false] at ok
      exact ok fun h => h.1 hr
    dsimp only
    split
    · omega
    · exact readFound_settled finds hlen

theorem own_settled {calls : List (Call C)} {old : Option (Lqe C)}
    (home : AtHome cfg set e) (hp : e.pending = old) (hc : ∀ k, tally k (calls.map (·.lqe)) = 0)
    (hlen : 1 < lqe.path.length) : Ends (ReqSettled cfg set old lqe) (own t e lqe calls) := by
  refine (ends_top lqe).bind fun top _ => ⟨fun k => ?_, rfl, fun _ _ => hlen, hp, home⟩
  simpa using hc k

theorem writeFound_settled (finds : Finds cfg set lqe e)
    (ok : ¬ passedOn e lqe → 1 < lqe.path.length) :
    Ends (ReqSettled cfg set e.pending lqe) (writeFound cfg t set e lqe) := by
  have elsewhere : ¬ (e.type = .modified ∧ e.typeL1L2 = .modified) → 1 < lqe.path.length :=
    fun h => ok fun hp => h ⟨hp.2.1, hp.2.2.1⟩
  unfold writeFound
  dsimp only
  split
  · rename_i h
    exact own_settled finds.home rfl (fun _ => rfl) (elsewhere (by simp [h]))
  · split
    · split
      · trivial
      · rename_i hcard
        split
        · trivial
        · rename_i owner hfirst
          refine (ends_top lqe).bind fun top ⟨path, hp⟩ => ?_
          split
          · exact ⟨by simp [forward, Lqe.push], rfl, by simp, rfl, finds.home⟩
          · rename_i heq
            refine own_settled finds.home rfl (fun _ => rfl) (ok fun hpass => ?_)
            obtain ⟨c, hs, hc⟩ := first_of_card (not_not.mp hcard)
            cases hc.symm.trans hfirst
            refine hpass.2.2.2 top (by simp [hp]) ?_
            rw [hs, not_not.mp heq]
    · rename_i h
      have hlen := elsewhere h
      split
      · split
        · trivial
        · split
          · exact own_settled finds.home rfl (fun _ => rfl) hlen
          · refine (ends_top lqe).bind fun top _ => ?_
            split
            · exact own_settled finds.home rfl (fun _ => rfl) hlen
            · exact own_settled finds.home rfl (fun _ => rfl) hlen
      · split
        · exact (ends_reqL1Evict _ _).bind fun calls hc =>
            own_settled finds.home rfl hc hlen
        · split
          · exact ⟨by simp, rfl, fun _ _ => hlen, rfl, finds.home⟩
          · trivial

theorem ends_soleRequester :
    Ends (fun sole => sole = true ↔ soleUpgrade e lqe) (soleRequester e lqe) := by
  unfold soleRequester
  split
  · rename_i h
    refine (ends_top lqe).bind fun top ⟨path, hp⟩ => ?_
    obtain ⟨c, hs, hc⟩ := first_of_card h.2
    change decide (first e.sharedL1 = some top) = true ↔ _
    rw [decide_eq_true_iff, hc]
    constructor
    · rintro heq
      cases heq
      exact ⟨h.1, top, by simp [hp], hs⟩
    · rintro ⟨-, top', htop, hs'⟩
      rw [hp, List.head?_cons, Option.mem_some_iff] at htop
      rw [htop, ← Finset.singleton_inj.mp (hs.symm.trans hs')]
  · rename_i h
    refine ⟨fun hs => (by cases hs), fun hs => absurd ⟨hs.1, ?_⟩ h⟩
    obtain ⟨-, top, -, hs⟩ := hs
    rw [hs, Finset.card_singleton]

theorem writeUpgrade_settled (finds : Finds cfg set lqe e)
    (hlen : cfg.alwaysHit = true → 1 < lqe.path.length)
    (ok : ¬ soleUpgrade e lqe → e.sharedL1 ≠ ∅ → e.pending = none) :
    Ends (ReqSettled cfg set e.pending lqe) (writeUpgrade cfg t set e lqe) := by
  refine ends_soleRequester.bind fun sole hsole => ?_
  split
  · refine ⟨by simp, rfl, fun _ => hlen, rfl, fun p hp => ?_⟩
    exact ⟨by simp, (finds.home p hp).2⟩
  · rename_i hns
    refine (ends_reqL1Evict _ _).bind fun calls hc => ?_
    by_cases hs : e.sharedL1 = ∅
    · refine ⟨fun k => by simpa using hc k, rfl, fun _ => hlen, ?_, ?_⟩
      · simp [WayUpdate.pending, hs]
      · simpa [WayUpdate.Forall, hs] using finds.home
    · have hn := ok (fun h => hns (hsole.mpr h)) hs
      refine ⟨fun k => by simpa using hc k, rfl, fun _ => hlen, ?_, ?_⟩
      · simp [WayUpdate.pending, hs]
      · simp [WayUpdate.Forall, hs, AtHome, hn]

theorem writeRequest_settled {found : Option (L2Entry C)} {old : Option (Lqe C)}
    (hf : ∀ e, found = some e → Finds cfg set lqe e ∧ old = e.pending)
    (ok : RequestOk cfg found lqe) (hw : lqe.type ≠ .read) :
    Ends (ReqSettled cfg set old lqe) (writeRequest cfg t set found lqe) := by
  unfold writeRequest
  cases found with
  | none => exact ⟨by simp, rfl, fun _ => ok, rfl, trivial⟩
  | some e =>
    obtain ⟨finds, rfl⟩ := hf e rfl
    unfold RequestOk at ok
    dsimp only at ok ⊢
    split
    · rename_i h
      rw [if_pos ⟨hw, h⟩] at ok
      exact writeUpgrade_settled finds ok.1 ok.2
    · rename_i h
      rw [if_neg fun h' => h h'.2] at ok
      exact writeFound_settled finds ok

omit [LinearOrder C] in
theorem dispose_conserves {old : Option (Lqe C)} {r : ReqOutcome C} (etype : EventType)
    (h : ReqSettled cfg set old lqe r) : Conserves cfg set old lqe (dispose cfg t etype r st) := by
  unfold dispose
  split
  · rename_i hi
    refine ⟨fun k => ?_, h.home⟩
    simp only [h.calls k, hi, if_true, h.pending, tally_nil, Nat.add_zero]
  · rename_i hi
    have none : ∀ k, tally k (r.calls.map (·.lqe)) = 0 := fun k => by rw [h.calls k, if_neg hi]
    split
    · refine ⟨fun k => ?_, h.home⟩
      have sent : (miss cfg t r.lqe).lqe.serial = lqe.serial := by
        rw [← h.serial]
        unfold miss
        dsimp only
        split <;> rfl
      simp [none k, h.pending, sent]
    · rename_i hhit
      have hlen := h.answerable (by simpa using hi) (by simpa using hhit)
      rw [if_pos hlen]
      refine (ends_top r.lqe).bind fun top _ => ⟨fun k => ?_, h.home⟩
      simp [none k, h.pending, h.serial]

theorem request_conserves {found : Option (L2Entry C)} {old : Option (Lqe C)}
    (hf : ∀ e, found = some e → Finds cfg set lqe e ∧ old = e.pending)
    (ok : RequestOk cfg found lqe) :
    Conserves cfg set old lqe (request cfg t set found lqe st) := by
  unfold request
  split
  · rename_i hr
    exact (readRequest_settled hf ok hr).bind fun r h => dispose_conserves _ h
  · rename_i hw
    exact (writeRequest_settled hf ok hw).bind fun r h => dispose_conserves _ h

end Handlers

end McSim.CacheL2
