import McSim.CacheL2Conservation
import McSim.Traffic

/-! What a second-level cache does with the elements it takes. What waits in a `pending` slot came
from the directory and carries nothing. -/

namespace McSim.CacheL2

open Contract Weighing

variable {C : Type} {w : Weight C} {part : C → Part C} {cfg : L2Config C} {t set fee n : Nat}
  {lqe : Lqe C} {e : L2Entry C} {st : L2Stats} {calls : List (Call C)}

def Quiet (e : L2Entry C) : Prop := ∀ p, e.pending = some p → cargo p.type = .nothing

/-- What a handler does for an element that weighs `n` -/
structure Handles (w : Weight C) (part : C → Part C) (fee n : Nat) (st : L2Stats) (o : Outcome C) :
    Prop where
  pays : Pays w part fee n st.counts o.stats.counts o.calls
  quiet : o.way.Forall Quiet

theorem Handles.of_sends {o : Outcome C} (h : Sends w part n o.calls)
    (same : o.stats.counts = st.counts) (quiet : o.way.Forall Quiet) : Handles w part fee n st o :=
  ⟨Pays.of_sends h same, quiet⟩

theorem Handles.mono {n' : Nat} {o : Outcome C} (h : Handles w part fee n st o) (hn : n ≤ n') :
    Handles w part fee n' st o :=
  ⟨h.pays.mono hn, h.quiet⟩

theorem toL1_sends (w : Weight C) (part : C → Part C) {c : C} (h : lqe.path.head? = some c)
    (hn : w.load lqe ≤ n) : Sends w part n [toL1 cfg t c lqe] :=
  Sends.one hn (routed_of_head rfl h)

theorem toL1_free (c : C) (h : cargo lqe.type = .nothing) : Sends w part 0 [toL1 cfg t c lqe] := by
  refine Sends.one (w.load_nothing _ h).le (routed_of_type fun hn => ?_)
  rw [show lqe.type = .nack from hn] at h
  cases h

theorem addEventToLL_free (isData : Bool) (h : cargo lqe.type = .nothing) :
    Sends w part 0 [addEventToLL cfg t lqe isData] := by
  have kind : (addEventToLL cfg t lqe isData).kind = .rep := by
    unfold addEventToLL
    split <;> rfl
  refine Sends.one ?_ (routed_of_type fun hn => ?_)
  · rw [w.charge_rep part kind, addEventToLL_lqe, w.load_nothing _ h]
  · rw [addEventToLL_lqe] at hn
    rw [hn] at h
    cases h

section Handlers
variable [LinearOrder C]

theorem addEventToLLTop_free (w : Weight C) (part : C → Part C) (lqe : Lqe C) (isData : Bool)
    (h : cargo lqe.type = .nothing) :
    Ends (fun call => Sends w part 0 [call]) (addEventToLLTop cfg t lqe isData) := by
  refine (ends_top lqe).bind fun top _ => ?_
  have free : ∀ call : Call C, call.kind = .rep → call.lqe = lqe → Sends w part 0 [call] := by
    intro call kind same
    refine Sends.one ?_ (routed_of_type fun hn => ?_)
    · rw [w.charge_rep part kind, same, w.load_nothing _ h]
    · rw [same] at hn
      rw [hn] at h
      cases h
  show Sends w part 0 [if top = cfg.directory then viaDirectory cfg t lqe
    else viaCrossbar cfg t lqe isData]
  split
  · exact free _ rfl rfl
  · exact free _ rfl rfl

theorem reqL1Evict_free (w : Weight C) (part : C → Part C) (address : Nat) (always : Bool) :
    Ends (fun calls => Sends w part 0 calls) (reqL1Evict cfg t e address lqe always) := by
  have evicts : ∀ cs : List C, Sends w part 0
      (cs.map fun c => toL1 cfg t c (Lqe.new cfg.self .evict address lqe.thId)) := fun cs => by
    refine Sends.free fun call hc => ?_
    obtain ⟨c, -, rfl⟩ := List.mem_map.mp hc
    exact ⟨rfl, by simp [toL1, Lqe.new]⟩
  unfold reqL1Evict
  split
  · exact evicts _
  · split
    · exact .nil
    · exact (ends_top lqe).bind fun top _ => evicts _

theorem returnPending_free (w : Weight C) (part : C → Part C) (quiet : Quiet e) :
    Ends (fun calls => Sends w part 0 calls) (returnPending cfg t e) := by
  unfold returnPending
  split
  · exact .nil
  · rename_i pending hp
    exact (addEventToLLTop_free w part _ true (quiet pending hp)).bind fun call hc => hc

omit [LinearOrder C] in
theorem evictVictim_free (address thId : Nat) (victim : L2Entry C) :
    Sends w part 0 (evictVictim cfg t address thId victim) := by
  unfold evictVictim
  split
  · exact .nil
  · exact addEventToLL_free _ rfl

omit [LinearOrder C] in
theorem nackRequester_sends (w : Weight C) (part : C → Part C) :
    Ends (fun calls => Sends w part (w.whole lqe) calls) (nackRequester cfg t lqe) := by
  unfold nackRequester
  split
  · refine (ends_top lqe).bind fun top ⟨path, hp⟩ => toL1_sends w part ?_ (w.load_le_whole _)
    rw [hp]
    rfl
  · exact Sends.nil

theorem turnAway_sends (w : Weight C) (part : C → Part C) :
    Ends (fun r => Sends w part (w.whole lqe) r.1) (turnAway cfg t set e lqe) := by
  have nack : ∀ {top : C} {path : List C}, lqe.path = top :: path →
      Sends w part (w.whole lqe) [toL1 cfg t top { lqe with type := .nack }] := fun hp =>
    toL1_sends w part (by rw [hp]; rfl) (w.load_le_whole { lqe with type := .nack })
  unfold turnAway
  dsimp only
  split
  · exact Sends.nil
  · exact (ends_top lqe).bind fun top ⟨path, hp⟩ => nack hp
  · refine (ends_top lqe).bind fun top ⟨path, hp⟩ =>
      (reqL1Evict_free w part _ _).bind fun calls hc => ?_
    exact (nack hp).cons hc

theorem repWriteNd_handles {found : Option (L2Entry C)} (quiet : ∀ e ∈ found, Quiet e)
    (type : lqe.type = .writeNd) :
    Ends (Handles w part fee (w.load lqe) st) (repWriteNd cfg t set found lqe st) := by
  rw [w.load_stack _ (by rw [type]; rfl)]
  refine (ends_pop lqe).bind ?_
  rintro _ ⟨c, path, hp, rfl⟩
  have answer : ∀ {top : C} {rest : List C} (type : EventType), path = top :: rest →
      Sends w part (w.whole lqe) [toL1 cfg t top { lqe with path, type }] := fun type hp' =>
    toL1_sends w part (by rw [hp']; rfl) ((w.load_le_whole _).trans (w.whole_pop hp))
  split
  · refine (ends_top _).bind fun top ⟨rest, hp'⟩ => Handles.of_sends ?_ rfl trivial
    exact (answer .nack hp').cons (addEventToLL_free _ rfl)
  · rename_i e heq
    refine (reqL1Evict_free w part _ _).bind fun evicts free => (ends_top _).bind
      fun top ⟨rest, hp'⟩ =>
      Handles.of_sends ?_ rfl ?_
    · have done : Sends w part 0
        [addEventToLL cfg t (Lqe.new cfg.self .eToM lqe.address lqe.thId) false] :=
        addEventToLL_free false rfl
      have sends := free.append ((answer .write hp').cons done)
      simpa using sends
    · exact quiet e (Option.filter_eq_some_iff.mp heq).1

theorem install_handles {etype : EventType} {st' : L2Stats} (shared : Bool)
    (hc : Sends w part 0 calls) (quiet : Quiet e) (same : st'.counts = st.counts) :
    Ends (Handles w part fee (w.whole lqe) st) (install cfg t etype shared e lqe calls st') := by
  have answer : ∀ {top : C} {path : List C}, lqe.path = top :: path →
      Sends w part (w.whole lqe) [toL1 cfg t top (filledAnswer etype lqe)] := fun hp =>
    toL1_sends w part (congrArg List.head? hp) (w.load_le_whole (filledAnswer etype lqe))
  unfold install
  dsimp only
  split
  · refine (ends_top lqe).bind fun top ⟨path, hp⟩ => Handles.of_sends ?_ same quiet
    have sends := hc.append (answer hp)
    rw [Nat.zero_add] at sends
    exact sends
  · exact Handles.of_sends (hc.mono (Nat.zero_le _)) same quiet

theorem fillVictim_handles {etype : EventType} {victim : L2Entry C} (quiet : Quiet victim) :
    Ends (Handles w part fee (w.whole lqe) st) (fillVictim cfg t set etype victim lqe st) := by
  unfold fillVictim
  split
  · refine (nackRequester_sends w part).bind fun nack hn => Handles.of_sends ?_ rfl trivial
    exact hn.append (addEventToLL_free _ rfl)
  · split
    · exact install_handles _ .nil quiet rfl
    · refine (reqL1Evict_free w part _ _).bind fun evicts free => ?_
      exact install_handles _ (free.append (evictVictim_free _ _ _)) quiet rfl

theorem fillFound_handles {etype : EventType} (quiet : Quiet e) :
    Ends (Handles w part fee (w.whole lqe) st) (fillFound cfg t set etype e lqe st) := by
  unfold fillFound
  split
  · exact (reqL1Evict_free w part _ _).bind fun evicts free => install_handles _ free quiet rfl
  · split
    · dsimp only
      split
      · refine (ends_top lqe).bind fun top ⟨path, hp⟩ => Handles.of_sends ?_ rfl trivial
        exact toL1_sends w part (by rw [hp]; rfl) (w.load_le_whole _)
      · exact Handles.of_sends .nil rfl trivial
    · exact install_handles _ .nil quiet rfl

theorem repFill_handles {found : Option (L2Entry C)} {victim : L2Entry C}
    (quiet : ∀ e ∈ found, Quiet e) (hv : Quiet victim) (type : cargo lqe.type = .stack) :
    Ends (Handles w part fee (w.load lqe) st) (repFill cfg t set found victim lqe st) := by
  rw [w.load_stack _ type]
  refine (ends_pop lqe).bind ?_
  rintro _ ⟨c, path, hp, rfl⟩
  cases found with
  | none =>
    exact Meets.mono (fillVictim_handles hv) (fun _ h => h.mono (w.whole_pop hp)) fun _ h => h
  | some e =>
    exact Meets.mono (fillFound_handles (quiet e rfl)) (fun _ h => h.mono (w.whole_pop hp))
      fun _ h => h

theorem repMToX_handles {found : Option (L2Entry C)} (quiet : ∀ e ∈ found, Quiet e)
    (type : cargo lqe.type = .below) :
    Ends (Handles w part fee (w.load lqe) st) (repMToX cfg t set found lqe st) := by
  rw [Weight.load, type]
  refine (ends_pop lqe).bind ?_
  rintro _ ⟨c, path, hp, rfl⟩
  rw [show lqe.path.tail = path by rw [hp]; rfl]
  cases found with
  | none => trivial
  | some e =>
    have free : ∀ e' : L2Entry C, e'.pending = none → Quiet e' := fun e' he p hp => by
      simp [he] at hp
    dsimp only
    split
    · refine (turnAway_sends w part).bind fun r hr => (returnPending_free w part (quiet e rfl)).bind
        fun back hb => Handles.of_sends (hr.append hb) rfl (free _ rfl)
    · split
      · refine (ends_top _).bind fun top hp' => (returnPending_free w part (quiet e rfl)).bind
          fun back hb => Handles.of_sends ?_ rfl (free _ rfl)
        obtain ⟨rest, hp'⟩ := hp'
        exact (toL1_sends w part
          (by rw [show (returnedAnswer e { lqe with path }).path = path from rfl,
          show path = top :: rest from hp']; rfl) (w.load_le_whole _)).cons hb
      · trivial

theorem repEvict_handles {found : Option (L2Entry C)} (quiet : ∀ e ∈ found, Quiet e)
    (type : cargo lqe.type = .nothing) :
    Ends (Handles w part fee 0 st) (repEvict cfg t found lqe st) := by
  unfold repEvict
  cases found with
  | none =>
    dsimp only
    split
    · exact (addEventToLLTop_free w part (lqe.push cfg.self) true type).bind fun call hc =>
        Handles.of_sends hc rfl trivial
    · exact Handles.of_sends .nil rfl trivial
  | some e =>
    dsimp only
    split
    · split
      · trivial
      · rename_i pending hp
        refine (addEventToLLTop_free w part _ true (quiet e rfl pending hp)).bind fun call hc =>
          (ends_top lqe).bind fun top _ => Handles.of_sends hc rfl fun p hp' => ?_
        cases hp'
    · exact (ends_top lqe).bind fun top _ => Handles.of_sends .nil rfl (quiet e rfl)

omit [LinearOrder C] in
theorem quiet_pending (type : cargo lqe.type = .nothing) (hp : e.pending = some lqe) : Quiet e := by
  intro p hp'
  cases hp.symm.trans hp'
  exact type

theorem repDirRd_handles {found : Option (L2Entry C)} (quiet : ∀ e ∈ found, Quiet e)
    (type : cargo lqe.type = .nothing) :
    Ends (Handles w part fee 0 st) (repDirRd cfg t set found lqe st) := by
  have back : ∀ e' : L2Entry C, Quiet e' → Ends (Handles w part fee 0 st)
      (addEventToLLTop cfg t lqe true >>= fun call => (return {
        way := .set e', calls := [call]
        stats := { st with numCoherencyAccess := st.numCoherencyAccess + 1 } } :
          Except Abort (Outcome C))) := fun e' quiet' =>
    (addEventToLLTop_free w part _ true type).bind fun call hc => Handles.of_sends hc rfl quiet'
  unfold repDirRd
  cases found with
  | none => exact Handles.of_sends (addEventToLL_free _ rfl) rfl trivial
  | some e =>
    dsimp only
    split
    · trivial
    · split
      · exact back _ (quiet e rfl)
      · exact back _ (quiet e rfl)
      · exact back _ (quiet e rfl)
      · split
        · trivial
        · split
          · trivial
          · exact Handles.of_sends (toL1_free _ rfl) rfl (quiet_pending type rfl)
      · split
        · trivial
        · exact Handles.of_sends .nil rfl (quiet_pending type rfl)
      · split
        · trivial
        · exact Handles.of_sends .nil rfl (quiet_pending type rfl)
      · trivial

omit [LinearOrder C] in
theorem repNack_handles (hn : w.of lqe.path.tail lqe.serial + fee ≤ n) :
    Ends (Handles w part fee n st) (repNack cfg t lqe st) := by
  refine (ends_pop lqe).bind ?_
  rintro _ ⟨c, path, hp, rfl⟩
  rw [show lqe.path.tail = path by rw [hp]; rfl] at hn
  split
  · refine (ends_top _).bind fun top ⟨rest, hp'⟩ => ⟨Pays.nack ?_ hn rfl, trivial⟩
    exact toL1_sends w part (congrArg List.head? hp') (w.load_le_whole { lqe with path })
  · have none : Sends w part 0 [] := .nil
    exact ⟨Pays.nack none (by omega) rfl, trivial⟩

theorem repToS_handles {found : Option (L2Entry C)} (quiet : ∀ e ∈ found, Quiet e)
    (type : cargo lqe.type = .nothing) :
    Ends (Handles w part fee 0 st) (repToS cfg t found lqe st) := by
  unfold repToS
  cases found with
  | none =>
    refine Handles.of_sends (addEventToLL_free _ ?_) rfl trivial
    dsimp only
    split <;> rfl
  | some e =>
    dsimp only
    split
    · trivial
    · exact (addEventToLLTop_free w part _ true type).bind fun call hc =>
        Handles.of_sends hc rfl (quiet e rfl)

theorem repInvalidate_handles {found : Option (L2Entry C)} (quiet : ∀ e ∈ found, Quiet e)
    (type : cargo lqe.type = .nothing) :
    Ends (Handles w part fee 0 st) (repInvalidate cfg t set found lqe st) := by
  unfold repInvalidate
  cases found with
  | none =>
    exact (addEventToLLTop_free w part { lqe with type := .invalidateNd } false rfl).bind
      fun call hc => Handles.of_sends hc rfl trivial
  | some e =>
    dsimp only
    split
    · trivial
    · split
      · split
        · trivial
        · split
          · trivial
          · refine Handles.of_sends (Sends.one ?_ (routed_of_type ?_)) rfl (quiet_pending type rfl)
            · exact w.empty.le
            · simp [toL1, Lqe.new]
      · split
        · split
          · trivial
          · exact Handles.of_sends .nil rfl (quiet_pending type rfl)
        · refine (reqL1Evict_free w part _ _).bind fun evicts free =>
            (addEventToLLTop_free w part _ _ type).bind fun back hb =>
              Handles.of_sends (free.append hb) rfl (quiet e rfl)

theorem reply_handles {found : Option (L2Entry C)} {victim : L2Entry C} (part : C → Part C)
    (quiet : ∀ e ∈ found, Quiet e) (hv : Quiet victim)
    (hn : lqe.type = .nack → w.of lqe.path.tail lqe.serial + fee ≤ w.load lqe) :
    Ends (Handles w part fee (w.load lqe) st) (reply cfg t set found victim lqe st) := by
  have none : ∀ {type}, lqe.type = type → cargo type = .nothing →
      cargo lqe.type = .nothing ∧ w.load lqe = 0 := fun {type} h hc => by
    subst h
    exact ⟨hc, w.load_nothing _ hc⟩
  unfold reply
  split
  · rename_i type
    exact repWriteNd_handles quiet type
  · rename_i type
    exact repFill_handles quiet hv (congrArg cargo type)
  · rename_i type
    exact repFill_handles quiet hv (congrArg cargo type)
  · rename_i type
    exact repFill_handles quiet hv (congrArg cargo type)
  · rename_i type
    exact repMToX_handles quiet (congrArg cargo type)
  · rename_i type
    exact repMToX_handles quiet (congrArg cargo type)
  · rename_i type
    obtain ⟨type, load⟩ := none type rfl
    exact load ▸ repEvict_handles quiet type
  · rename_i type
    obtain ⟨type, load⟩ := none type rfl
    exact load ▸ repEvict_handles quiet type
  · rename_i type
    obtain ⟨type, load⟩ := none type rfl
    exact load ▸ repDirRd_handles quiet type
  · rename_i type
    exact repNack_handles (hn type)
  · rename_i type
    obtain ⟨type, load⟩ := none type rfl
    exact load ▸ repToS_handles quiet type
  · rename_i type
    obtain ⟨type, load⟩ := none type rfl
    exact load ▸ repToS_handles quiet type
  · rename_i type
    obtain ⟨type, load⟩ := none type rfl
    exact load ▸ repInvalidate_handles quiet type
  · rename_i type
    obtain ⟨type, load⟩ := none type rfl
    exact load ▸ repInvalidate_handles quiet type
  · exact Handles.of_sends (Sends.nil.mono (Nat.zero_le _)) rfl trivial
  · trivial

/-- What a request is decided to be. It is passed on to the owner L1, or it is still at hand. -/
structure Decides (w : Weight C) (part : C → Part C) (lqe : Lqe C) (r : ReqOutcome C) : Prop where
  calls : Sends w part (if r.enterIntermediateState then w.whole lqe else 0) r.calls
  path : r.lqe.path = lqe.path
  serial : r.lqe.serial = lqe.serial
  quiet : r.way.Forall Quiet

omit [LinearOrder C] in
theorem Decides.hit {way : WayUpdate C} (quiet : way.Forall Quiet) :
    Decides w part lqe { way, lqe, hit := true } := ⟨.nil, rfl, rfl, quiet⟩

omit [LinearOrder C] in
theorem forward_sends (owner : C) {type : EventType} (h : cargo type = .below) :
    Sends w part (w.whole lqe) [forward cfg t type owner lqe] := by
  refine Sends.one ?_ (routed_of_type fun hn => ?_)
  · rw [w.charge_rep part rfl]
    exact (w.load_below (forward cfg t type owner lqe).lqe h).le
  · rw [show type = .nack from hn] at h
    cases h

theorem readFound_decides (w : Weight C) (part : C → Part C) (quiet : Quiet e) :
    Ends (fun r => Decides w part lqe r ∧ r.isCoherenceMiss = false) (readFound cfg t e lqe) := by
  unfold readFound
  dsimp only
  split
  · exact (ends_top lqe).bind fun _ _ => ⟨.hit quiet, rfl⟩
  · split
    · exact (ends_top lqe).bind fun _ _ => ⟨.hit quiet, rfl⟩
    · split
      · exact (ends_top lqe).bind fun _ _ => ⟨.hit quiet, rfl⟩
      · split
        · split
          · trivial
          · split
            · refine (ends_top lqe).bind fun top _ => ?_
              split
              · exact ⟨⟨forward_sends _ rfl, rfl, rfl, quiet⟩, rfl⟩
              · exact ⟨.hit quiet, rfl⟩
            · exact (ends_top lqe).bind fun _ _ => ⟨.hit quiet, rfl⟩
        · split
          · exact ⟨⟨.nil, rfl, rfl, quiet⟩, rfl⟩
          · trivial

theorem readRequest_decides {found : Option (L2Entry C)} (w : Weight C) (part : C → Part C)
    (quiet : ∀ e ∈ found, Quiet e) :
    Ends (fun r => Decides w part lqe r ∧ r.isCoherenceMiss = false)
      (readRequest cfg t found lqe) := by
  unfold readRequest
  cases found with
  | none => exact ⟨⟨.nil, rfl, rfl, trivial⟩, rfl⟩
  | some e =>
    dsimp only
    split
    · exact ⟨.hit trivial, rfl⟩
    · exact readFound_decides w part (quiet e rfl)

theorem own_decides (hc : Sends w part 0 calls) (quiet : Quiet e) :
    Ends (Decides w part lqe) (own t e lqe calls) :=
  (ends_top lqe).bind fun _ _ => ⟨hc, rfl, rfl, quiet⟩

theorem writeFound_decides (w : Weight C) (part : C → Part C) (quiet : Quiet e) :
    Ends (Decides w part lqe) (writeFound cfg t set e lqe) := by
  unfold writeFound
  dsimp only
  split
  · exact own_decides .nil quiet
  · split
    · split
      · trivial
      · split
        · trivial
        · refine (ends_top lqe).bind fun top _ => ?_
          split
          · exact ⟨forward_sends _ rfl, rfl, rfl, quiet⟩
          · exact own_decides .nil quiet
    · split
      · split
        · trivial
        · split
          · exact own_decides .nil quiet
          · refine (ends_top lqe).bind fun top _ => ?_
            split
            · exact own_decides (toL1_free _ rfl) quiet
            · exact own_decides .nil quiet
      · split
        · exact (reqL1Evict_free w part _ _).bind fun evicts free => own_decides free quiet
        · split
          · exact ⟨.nil, rfl, rfl, quiet⟩
          · trivial

theorem writeUpgrade_decides (w : Weight C) (part : C → Part C) (quiet : Quiet e) :
    Ends (Decides w part lqe) (writeUpgrade cfg t set e lqe) := by
  have sole : Ends (fun _ => True) (soleRequester e lqe) := by
    cases soleRequester e lqe <;> trivial
  refine sole.bind fun sole _ => ?_
  split
  · exact ⟨.nil, rfl, rfl, quiet⟩
  · refine (reqL1Evict_free w part _ _).bind fun evicts free => ⟨free, rfl, rfl, ?_⟩
    show Quiet (if e.sharedL1 = ∅ then e
      else { e with type := .invalid, lastAccessTime := t, sharedL1 := ∅ })
    split <;> exact quiet

theorem writeRequest_decides {found : Option (L2Entry C)} (w : Weight C) (part : C → Part C)
    (quiet : ∀ e ∈ found, Quiet e) :
      Ends (Decides w part lqe) (writeRequest cfg t set found lqe) := by
  unfold writeRequest
  cases found with
  | none => exact ⟨.nil, rfl, rfl, trivial⟩
  | some e =>
    dsimp only
    split
    · exact writeUpgrade_decides w part (quiet e rfl)
    · exact writeFound_decides w part (quiet e rfl)

variable {paid : Finset (Option Nat)}

omit [LinearOrder C] in
theorem miss_sends (h : w.of (cfg.self :: lqe.path) lqe.serial ≤ n) :
    Sends w part n [miss cfg t lqe] := by
  unfold miss
  dsimp only
  split
  · exact Sends.one ((w.charge_req_le part rfl).trans h) fun _ => trivial
  · exact Sends.one ((w.charge_req_le part rfl).trans h) fun _ => trivial

structure Accessed (st st' : L2Stats) : Prop where
  nacks : st'.counts.numNack = st.counts.numNack
  misses : st'.counts.misses = st.counts.misses
  accesses : st'.counts.accesses = st.counts.accesses + 1

omit [LinearOrder C] in
theorem dispose_handles {r : ReqOutcome C} {st' : L2Stats} (hf : Fee w cfg.self fee paid)
    (etype : EventType) (h : Decides w part lqe r) (counted : Accessed st st')
    (upgrade : r.isCoherenceMiss = true → lqe.serial ∈ paid) :
    Ends (Handles w part fee (w.whole lqe) st) (dispose cfg t etype r st') := by
  have same : w.whole r.lqe = w.whole lqe := by rw [Weight.whole, Weight.whole, h.path, h.serial]
  unfold dispose
  split
  · rename_i hi
    have calls := h.calls
    rw [if_pos hi] at calls
    exact ⟨Pays.answer calls counted.nacks counted.misses counted.accesses, h.quiet⟩
  · rename_i hi
    have calls := h.calls
    rw [if_neg hi] at calls
    split
    · dsimp only
      have sent : ∀ {n : Nat}, w.of (cfg.self :: lqe.path) lqe.serial ≤ n →
          Sends w part n (r.calls ++ [miss cfg t r.lqe]) := fun {n} hn => by
        have one : Sends w part n [miss cfg t r.lqe] :=
          miss_sends (by rw [h.path, h.serial]; exact hn)
        have sends := calls.append one
        rwa [Nat.zero_add] at sends
      split
      · rename_i coherence
        have paid := hf.free lqe.path _ (upgrade coherence)
        exact ⟨Pays.answer (sent paid) counted.nacks counted.misses counted.accesses, h.quiet⟩
      · have push := sent (hf.push lqe.path lqe.serial)
        split
        · refine ⟨Pays.miss push counted.nacks ?_ counted.accesses, h.quiet⟩
          rw [← counted.misses]
          rfl
        · refine ⟨Pays.miss push counted.nacks ?_ counted.accesses, h.quiet⟩
          rw [← counted.misses]
          show st'.numRdMiss + 1 + st'.numWrMiss = st'.numRdMiss + st'.numWrMiss + 1
          omega
    · split
      · refine (ends_top r.lqe).bind fun top hp => ⟨?_, h.quiet⟩
        obtain ⟨path, hp⟩ := hp
        have top' : Sends w part (w.whole r.lqe) [toL1 cfg t top r.lqe] :=
          toL1_sends w part (congrArg List.head? hp) (w.load_le_whole r.lqe)
        have answer := calls.append top'
        rw [Nat.zero_add, same] at answer
        exact Pays.answer answer counted.nacks counted.misses counted.accesses
      · exact ⟨Pays.answer (calls.mono (Nat.zero_le _)) counted.nacks counted.misses
          counted.accesses, h.quiet⟩

omit [LinearOrder C] in
theorem dispose_upgrades {r : ReqOutcome C} (etype : EventType) (st : L2Stats) :
    Ends (fun o => o.stats.numUpgradeReq = st.numUpgradeReq) (dispose cfg t etype r st) := by
  unfold dispose
  split
  · rfl
  · split
    · dsimp only
      split
      · rfl
      · split <;> rfl
    · split
      · exact (ends_top r.lqe).bind fun _ _ => rfl
      · rfl

theorem request_handles {found : Option (L2Entry C)} (part : C → Part C)
    (hf : Fee w cfg.self fee paid) (quiet : ∀ e ∈ found, Quiet e) :
    Ends (fun o => (o.stats.numUpgradeReq ≠ st.numUpgradeReq → lqe.serial ∈ paid) →
        Handles w part fee (w.whole lqe) st o)
      (request cfg t set found lqe st) := by
  unfold request
  split
  · refine (readRequest_decides w part quiet).bind fun r h => ?_
    have accessed : Accessed st { st with numRdAccess := st.numRdAccess + 1 } := by
      refine ⟨rfl, rfl, ?_⟩
      show st.numRdAccess + 1 + st.numWrAccess = st.numRdAccess + st.numWrAccess + 1
      omega
    refine Meets.mono (dispose_handles hf lqe.type h.1 accessed fun coherence => ?_)
      (fun o ho _ => ho)
      fun _ h => h
    rw [h.2] at coherence
    cases coherence
  · refine (writeRequest_decides w part quiet).bind fun r h => ?_
    dsimp only
    have accessed : ∀ up, Accessed st
      { st with numWrAccess := st.numWrAccess + 1, numUpgradeReq := up } :=
      fun _ => ⟨rfl, rfl, rfl⟩
    generalize hup : (if r.isCoherenceMiss = true then st.numUpgradeReq + 1 else st.numUpgradeReq) =
      up
    by_cases ok : r.isCoherenceMiss = true → lqe.serial ∈ paid
    · exact Meets.mono (dispose_handles hf lqe.type h (accessed up) ok) (fun o ho _ => ho)
        fun _ h => h
    · obtain ⟨coherence, unpaid⟩ := Classical.not_imp.mp ok
      rw [if_pos coherence] at hup
      refine Meets.mono (dispose_upgrades lqe.type _) (fun o ho paid' => ?_) fun _ h => h
      exact (unpaid (paid' (by rw [ho, ← hup]; exact Nat.succ_ne_self _))).elim

end Handlers

def Quiets (s : CacheL2 C) : Prop := ∀ set, ∀ e ∈ s.tags set, Quiet e

theorem quiets_init (numWays : Nat) : Quiets (init numWays : CacheL2 C) := by
  intro set e he p hp
  obtain ⟨way, -, rfl⟩ := List.mem_map.mp he
  cases hp

def waiting (s : CacheL2 C) :
    List (Nat × Lqe C) × List (Nat × Lqe C) × List (Lqe C) × (Nat → List (Lqe C)) :=
  (s.reqEvent, s.repEvent, s.repQ, s.reqQs)

theorem inL2_congr {s s' : CacheL2 C} (h : s'.waiting = s.waiting) :
    w.inL2 cfg s' = w.inL2 cfg s := by
  simp only [waiting, Prod.mk.injEq] at h
  obtain ⟨req, rep, repQ, reqQs⟩ := h
  rw [Weight.inL2, Weight.inL2, req, rep, repQ, reqQs]

theorem apply_forall {P : L2Entry C → Prop} {s : CacheL2 C} (h : ∀ set, ∀ e ∈ s.tags set, P e)
    (set idx : Nat) {o : Outcome C} (ho : o.way.Forall P) :
    ∀ set', ∀ e ∈ (s.apply set idx o).1.tags set', P e := by
  intro set' e he
  by_cases hset : set' = set
  · subst hset
    simp only [apply, Function.update_self] at he
    exact updateWay_forall idx (h set') ho e he
  · simp only [apply, Function.update_of_ne hset] at he
    exact h set' e he

theorem found_forall {P : L2Entry C → Prop} {s : CacheL2 C} (h : ∀ set, ∀ e ∈ s.tags set, P e)
    {p : L2Entry C → Bool} {set : Nat} : ∀ e ∈ found p (s.tags set), P e := fun e he => by
  obtain ⟨idx, -, hi, -⟩ := found_eq_some he
  exact h _ e (List.mem_of_getElem? hi)

structure Acted (w : Weight C) (part : C → Part C) (fee n : Nat) (s s' : CacheL2 C)
    (calls : List (Call C)) : Prop where
  waiting : s'.waiting = s.waiting
  pays : Pays w part fee n s.stats.counts s'.stats.counts calls
  quiets : Quiets s'

section Process
variable [LinearOrder C] {s : CacheL2 C} {paid : Finset (Option Nat)}

theorem processReply_acted (part : C → Part C) (h : Quiets s)
    (hn : lqe.type = .nack → w.of lqe.path.tail lqe.serial + fee ≤ w.load lqe) :
    Ends (fun r => Acted w part fee (w.load lqe) s r.1 r.2.calls) (processReply cfg t s lqe) := by
  unfold processReply
  dsimp only
  split
  · trivial
  · rename_i victim hv
    refine Ends.bind (reply_handles part (found_forall h) (h _ victim (List.mem_of_mem_head? hv))
      hn) fun o ho => ?_
    exact ⟨rfl, ho.pays, apply_forall h _ _ ho.quiet⟩

theorem processRequest_acted (part : C → Part C) (h : Quiets s) (hf : Fee w cfg.self fee paid) :
    Ends (fun r => (r.1.stats.numUpgradeReq ≠ s.stats.numUpgradeReq → lqe.serial ∈ paid) →
        Acted w part fee (w.whole lqe) s r.1 r.2.calls)
      (processRequest cfg t s lqe) := by
  refine Ends.bind (request_handles part hf (found_forall h)) fun o ho ok => ?_
  exact ⟨rfl, (ho ok).pays, apply_forall h _ _ (ho ok).quiet⟩

theorem processRequests_acted (part : C → Part C) (h : Quiets s) (hf : Fee w cfg.self fee paid)
    (requests : List (Lqe C)) (ok : ∀ serial ∈ upgrades cfg t s requests, serial ∈ paid) :
    Ends (fun r => Acted w part fee (weigh w.whole requests) s r.1 r.2.calls)
      (processRequests cfg t s requests) := by
  induction requests generalizing s with
  | nil => exact ⟨rfl, Pays.of_sends .nil rfl, h⟩
  | cons lqe rest ih =>
    have one := @processRequest_acted _ w cfg t fee lqe _ s paid part h hf
    unfold processRequests
    unfold upgrades at ok
    cases hr : processRequest cfg t s lqe with
    | error a => trivial
    | ok r =>
      rw [hr] at one ok
      have head := one fun changed => ok lqe.serial (by simp [changed])
      have tail := ih head.quiets fun serial mem => ok serial (List.mem_append_right _ mem)
      show Ends _ (processRequests cfg t r.1 rest >>= _)
      exact tail.bind fun r' h' => ⟨h'.waiting.trans head.waiting,
        head.pays.trans h'.pays, h'.quiets⟩

omit [LinearOrder C] in
theorem inL2_addReq (s : CacheL2 C) (t : Nat) (lqe : Lqe C) :
    w.inL2 cfg (s.addReqEvent cfg t lqe) = w.inL2 cfg s + w.whole lqe := Weight.inCache_addReq _ lqe

omit [LinearOrder C] in
theorem inL2_addRep (s : CacheL2 C) (t : Nat) (lqe : Lqe C) :
    w.inL2 cfg (s.addRepEvent cfg t lqe) = w.inL2 cfg s + w.load lqe := Weight.inCache_addRep _ lqe

omit [LinearOrder C] in
theorem inL2_takeEvents (cfg : L2Config C) (t : Nat) (s : CacheL2 C) :
    w.inL2 cfg (s.takeEvents cfg t) = w.inL2 cfg s :=
  Weight.inCache_take t fun _ => Nat.mod_lt _ cfg.numBanks_pos

def replies (s : CacheL2 C) : List (Lqe C) := waitingReplies s.repEvent s.repQ

omit [LinearOrder C] in
theorem replies_congr {s s' : CacheL2 C} (h : s'.waiting = s.waiting) : s'.replies = s.replies := by
  simp only [waiting, Prod.mk.injEq] at h
  rw [replies, replies, h.2.1, h.2.2.1]

omit [LinearOrder C] in
theorem mem_replies_takeEvents {t : Nat} {s : CacheL2 C} {lqe : Lqe C} :
    lqe ∈ (s.takeEvents cfg t).replies ↔ lqe ∈ s.replies := mem_waitingReplies_take

omit [LinearOrder C] in
theorem mem_replies_addRep {t : Nat} {s : CacheL2 C} {lqe lqe' : Lqe C} :
    lqe ∈ (s.addRepEvent cfg t lqe').replies ↔ lqe = lqe' ∨ lqe ∈ s.replies :=
  mem_waitingReplies_insert

/-- A step takes elements that weigh `n` out of the cache. -/
structure Stepped (w : Weight C) (part : C → Part C) (cfg : L2Config C) (fee : Nat)
    (s s' : CacheL2 C) (calls : List (Call C)) : Prop where
  pays : ∃ n, w.inL2 cfg s' + n = w.inL2 cfg s ∧
    Pays w part fee n s.stats.counts s'.stats.counts calls
  replies : ∀ lqe ∈ s'.replies, lqe ∈ s.replies
  quiets : Quiets s'

theorem serve_stepped (part : C → Part C) (h : Quiets s) (hf : Fee w cfg.self fee paid)
    (hr : ∀ lqe ∈ s.repQ.head?, lqe.type = .nack →
      w.of lqe.path.tail lqe.serial + fee ≤ w.load lqe)
    (hu : s.repQ = [] → ∀ serial ∈ upgrades cfg t { s with reqQs := fun bank => (s.reqQs bank).tail }
      (s.frontRequests cfg), serial ∈ paid) :
    Ends (fun r => Stepped w part cfg fee s r.1 r.2.calls) (serve cfg t s) := by
  unfold serve
  split
  · rename_i lqe repQ hq
    rw [hq] at hr
    refine Meets.mono (processReply_acted (s := { s with repQ }) part h (hr lqe rfl))
      (fun r acted => ⟨⟨w.load lqe, ?_, acted.pays⟩, fun other mem => ?_, acted.quiets⟩)
      fun _ h => h
    · rw [inL2_congr acted.waiting, Weight.inL2, Weight.inL2, hq, Weight.inCache_cons]
    · rw [replies_congr acted.waiting] at mem
      rw [replies, hq]
      exact List.mem_append.mpr ((List.mem_append.mp mem).imp_right (List.mem_cons_of_mem lqe))
  · rename_i hq
    split
    · trivial
    · refine Meets.mono (processRequests_acted
        (s := { s with reqQs := fun bank => (s.reqQs bank).tail })
        part h hf _ (hu hq)) (fun r acted => ⟨⟨_, ?_, acted.pays⟩, fun other mem => ?_,
          acted.quiets⟩)
        fun _ h => h
      · rw [inL2_congr acted.waiting]
        exact Weight.inCache_heads.symm
      · rw [replies_congr acted.waiting] at mem
        exact mem

theorem processEvent_stepped (part : C → Part C) (h : Quiets s) (hf : Fee w cfg.self fee paid)
    (hr : ∀ lqe ∈ (s.takeEvents cfg t).repQ.head?, lqe.type = .nack →
      w.of lqe.path.tail lqe.serial + fee ≤ w.load lqe)
    (hu : (s.takeEvents cfg t).repQ = [] → ∀ serial ∈ upgrades cfg t
      { s.takeEvents cfg t with reqQs := fun bank => ((s.takeEvents cfg t).reqQs bank).tail }
      ((s.takeEvents cfg t).frontRequests cfg), serial ∈ paid) :
    Ends (fun r => Stepped w part cfg fee s r.1 r.2.1.calls) (processEvent cfg t s) := by
  have taken : Quiets (s.takeEvents cfg t) := h
  refine (serve_stepped part taken hf hr hu).bind fun r step => ⟨?_, fun lqe mem => ?_, step.quiets⟩
  · obtain ⟨n, weighs, pays⟩ := step.pays
    exact ⟨n, weighs.trans (inL2_takeEvents cfg t s), pays⟩
  · exact mem_replies_takeEvents.mp (step.replies lqe mem)

end Process
end McSim.CacheL2
