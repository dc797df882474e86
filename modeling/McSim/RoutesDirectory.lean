import McSim.DirectoryCache
import McSim.Routes

/-! Where a directory sends its elements. Everything it is handed is for an address of its own. -/

namespace McSim.Directory

open Contract Routes
open CacheL2 (ends_top ends_pop)

variable {C : Type} {r : Routes C} {cfg : DirConfig C} {c : C} {t : Nat} {lqe : Lqe C}
    {e : DirEntry C}
  {st : DirStats}

structure Steers (r : Routes C) (d : C) (o : Outcome C) : Prop where
  sent : r.Sent o.calls
  entry : ∀ e ∈ o.entry, Sharing r d e

theorem Sharing.fewer {e' : DirEntry C} (h : Sharing r c e) (shared : e'.sharedL2 ⊆ e.sharedL2)
    (pending : e'.pending = e.pending) : Sharing r c e' :=
  ⟨fun l2 mem => h.sharedL2 l2 (shared mem), pending ▸ h.pending⟩

theorem Sharing.holding {e' : DirEntry C} (h : Sharing r c e) (shared : e'.sharedL2 ⊆ e.sharedL2)
    (pending : e'.pending = some lqe) (demand : r.DirDemand c lqe) : Sharing r c e' := by
  refine ⟨fun l2 mem => h.sharedL2 l2 (shared mem), fun p hp => ?_⟩
  rw [pending] at hp
  cases hp
  exact demand

theorem Sharing.free {e' : DirEntry C} (h : Sharing r c e) (shared : e'.sharedL2 ⊆ e.sharedL2)
    (pending : e'.pending = none) : Sharing r c e' :=
  ⟨fun l2 mem => h.sharedL2 l2 (shared mem), fun p hp => by rw [pending] at hp; cases hp⟩

theorem steers_some {o : Outcome C} {e' : DirEntry C} (sent : r.Sent o.calls)
    (entry : o.entry = some e') (h : Sharing r c e') : Steers r c o := by
  refine ⟨sent, fun e he => ?_⟩
  rw [entry] at he
  cases he
  exact h

theorem steers_none {o : Outcome C} (sent : r.Sent o.calls) (entry : o.entry = none) :
    Steers r c o :=
  ⟨sent, fun e he => by rw [entry] at he; cases he⟩

/-- A request of an L2, or one for directory information -/
def Request (r : Routes C) (c : C) (lqe : Lqe C) : Prop := r.DirDemand c lqe ∨ r.DirInfo c lqe

theorem Request.home (h : Request r c lqe) : r.home lqe.address = c := h.elim (·.1) (·.1)

theorem Request.relayed (h : Request r c lqe) : r.Relayed c lqe.serial lqe.path :=
  h.elim (fun h => .inr (.inr h.2.2)) fun h => .inr (.inl h.2.2)

theorem Request.demand (h : Request r c lqe) (type : lqe.type = .read ∨ lqe.type = .write) :
    r.DirDemand c lqe := by
  refine h.resolve_right fun info => ?_
  rw [info.2.1] at type
  simp at type

section Handlers
variable [LinearOrder C] (laid : r.Laid) (hc : r.part c = .directory cfg)
include laid hc

omit [LinearOrder C] in
theorem toMc_sent (h : r.McMessage c lqe) : r.Sent [toMc cfg t lqe] := by
  obtain ⟨-, -, -, -, mc, hmc, rfl⟩ := laid.directory c cfg hc
  exact Sent.one (fits_mc hmc rfl h)

omit [LinearOrder C] in
theorem toMc_eRd_sent (home : r.home lqe.address = c) (relayed : r.Relayed c lqe.serial lqe.path) :
    r.Sent [toMc cfg t { lqe.push cfg.self with type := .eRd }] := by
  obtain ⟨self, -⟩ := laid.directory c cfg hc
  refine toMc_sent laid hc (.inr ⟨by simp, home, .inr (.inr ⟨rfl, lqe.path, ?_, relayed⟩)⟩)
  exact congrArg (· :: lqe.path) self

omit hc [LinearOrder C] in
theorem relayed_arrives {type : EventType} (home : r.home lqe.address = c) (hr : relays type)
    (relayed : r.Relayed c lqe.serial lqe.path) :
    ∀ top below, lqe.path = top :: below → r.Arrives top .rep { lqe with type } := by
  intro top below path
  rcases relayed with none | self | ⟨l2, below', path', isL2, asked⟩
  · cases path.symm.trans none
  · obtain ⟨rfl, rfl⟩ := List.cons.inj (path.symm.trans self)
    refine arrives_directory (home ▸ laid.home _) ⟨home, .inr (.inr ⟨hr, [], path, .inl rfl⟩)⟩
  · obtain ⟨rfl, rfl⟩ := List.cons.inj (path.symm.trans path')
    refine arrives_l2 isL2 ?_
    have stack : ∃ below', lqe.path = top :: below' ∧ r.Asked top lqe.serial below' :=
      ⟨below, path, asked⟩
    unfold L2Reply
    cases type <;> first | exact stack | cases hr

theorem addEventToComp_sent {comp : C} (h : r.Arrives comp .rep lqe) :
    r.Sent [addEventToComp cfg t comp lqe] := by
  obtain ⟨-, -, -, crossbar, -⟩ := laid.directory c cfg hc
  unfold addEventToComp
  split
  · rename_i near
    subst near
    exact Sent.one (fits_of_arrives h)
  · refine Sent.one (fits_crossbar crossbar fun xbar hx d hd => ?_)
    cases hd
    exact h

theorem addEventToUL_sent (isData : Bool)
    (h : ∀ top below, lqe.path = top :: below → r.Arrives top .rep lqe) :
    CacheL2.Ends (fun call => r.Sent [call]) (addEventToUL cfg t lqe isData) := by
  obtain ⟨-, -, -, crossbar, -⟩ := laid.directory c cfg hc
  refine (ends_top lqe).bind fun top ⟨below, path⟩ => ?_
  have arrives := h top below path
  show r.Sent [if top = cfg.cachel2 then _ else _]
  split
  · rename_i near
    subst near
    exact Sent.one (fits_of_arrives arrives)
  · refine Sent.one (fits_crossbar crossbar fun xbar hx d hd => ?_)
    cases hd
    exact arrives

theorem addEventToULpp_sent (isData : Bool) (up : Crossbar.toDirectory lqe.type = false)
    (h : ∀ top below, lqe.path = top :: below → r.Arrives top .rep lqe) :
    CacheL2.Ends (fun call => r.Sent [call]) (addEventToULpp cfg t lqe isData) := by
  obtain ⟨-, -, -, crossbar, -⟩ := laid.directory c cfg hc
  refine (ends_top lqe).bind fun top ⟨below, path⟩ => ?_
  have arrives := h top below path
  show r.Sent [if top = cfg.cachel2 then _ else _]
  split
  · rename_i near
    subst near
    exact Sent.one (fits_of_arrives arrives)
  · refine Sent.one (fits_crossbar crossbar fun xbar hx d hd => ?_)
    unfold Part.priority Crossbar.destination at hd
    dsimp only at hd
    rw [if_neg (by simp [up]), path] at hd
    cases hd
    exact arrives

omit [LinearOrder C] in
theorem ask_arrives {owner : C} {below : List C} (howner : r.IsL2 owner ∨ owner = c)
    (home : r.home lqe.address = c) (path : lqe.path = cfg.self :: below) (asks : asksL2 lqe.type) :
    r.Arrives owner .rep lqe := by
  obtain ⟨self, -⟩ := laid.directory c cfg hc
  rcases howner with isL2 | rfl
  · refine arrives_l2 isL2 ?_
    have head : lqe.path.head? = some (r.home lqe.address) := by
      rw [path, home, self]
      rfl
    unfold L2Reply
    cases type : lqe.type <;> first | exact head | (rw [type] at asks; cases asks)
  · refine arrives_directory ⟨cfg, hc⟩ ⟨home, .inl ?_⟩
    cases type : lqe.type <;> first | rfl | (rw [type] at asks; cases asks)

theorem nack_sent (isData : Bool) (home : r.home lqe.address = c)
    (relayed : r.Relayed c lqe.serial lqe.path) :
    CacheL2.Ends (fun call => r.Sent [call])
      (addEventToULpp cfg t { lqe with type := .nack } isData) :=
  addEventToULpp_sent laid hc isData rfl (relayed_arrives laid home rfl relayed)

omit laid hc [LinearOrder C] in
theorem demand_relayed (h : r.DirDemand c lqe) : r.Relayed c lqe.serial lqe.path :=
  .inr (.inr h.2.2)

omit laid hc [LinearOrder C] in
theorem ends_top_demand (h : r.DirDemand c lqe) : CacheL2.Ends r.IsL2 lqe.top := by
  obtain ⟨-, -, l2, below, path, isL2, -⟩ := h
  refine (ends_top lqe).mono (fun top ⟨below', hp⟩ => ?_) fun _ h => h
  rw [(List.cons.inj (hp.symm.trans path)).1]
  exact isL2

theorem repEvict_steers (home : r.home lqe.address = c)
    (type : lqe.type = .evict ∨ lqe.type = .rdDirInfoRep)
    (h : Sharing r c e) : CacheL2.Ends (Steers r c) (repEvict cfg t e lqe st) := by
  have write : r.Sent [toMc cfg t (lqe.push cfg.self)] := by
    refine toMc_sent laid hc ?_
    rcases type with type | type
    · refine .inl ?_
      rw [show (lqe.push cfg.self).type = .evict from type]
      rfl
    · have same : (lqe.push cfg.self).type = .rdDirInfoRep := type
      exact .inr ⟨by simp [same], home, .inl (by rw [same]; rfl)⟩
  have left : ∀ top, Sharing r c { e with sharedL2 := e.sharedL2.erase top } := fun top =>
    h.fewer (Finset.erase_subset top _) rfl
  unfold repEvict
  dsimp only
  split
  · split
    · trivial
    · refine (ends_top lqe).bind fun top _ => ?_
      split
      · exact steers_some .nil rfl h
      · exact steers_none write rfl
  · split
    · trivial
    · refine (ends_top lqe).bind fun top _ => ?_
      split
      · exact steers_some .nil rfl h
      · rename_i type _ _ _
        rw [if_neg (by rw [type]; decide)]
        exact steers_some write rfl (left top)
  · exact (ends_top lqe).bind fun top _ => steers_some .nil rfl (left top)
  · exact steers_some .nil rfl h
  · refine (ends_top lqe).bind fun top _ => ?_
    split
    · exact steers_none .nil rfl
    · exact steers_some .nil rfl (left top)

omit laid hc [LinearOrder C] in
theorem repEToX_steers {found : Option (DirEntry C)} (sharing : ∀ e ∈ found, Sharing r c e) :
    CacheL2.Ends (Steers r c) (repEToX found lqe st) := by
  unfold repEToX
  split
  · exact steers_none .nil rfl
  · rename_i e
    split
    · trivial
    · split
      · exact steers_none .nil rfl
      · exact steers_some .nil rfl ((sharing e rfl).free (Finset.Subset.refl _) rfl)

theorem resume_steers {pending : Lqe C} (h : Sharing r c e) (demand : r.DirDemand c pending) :
    CacheL2.Ends (Steers r c) (resume cfg t e pending lqe st) := by
  refine (ends_top_demand demand).bind fun top isL2 => ?_
  have shared : ∀ l2 ∈ insert top e.sharedL2, r.IsL2 l2 ∨ l2 = c := fun l2 mem =>
    (Finset.mem_insert.mp mem).elim (fun same => .inl (same ▸ isL2)) (h.sharedL2 l2)
  dsimp only
  split
  · have arrives : ∀ top below, pending.path = top :: below → r.Arrives top .rep pending := by
      intro top' below path
      obtain ⟨-, type, l2, below', path', isL2', asked⟩ := demand
      obtain ⟨rfl, rfl⟩ := List.cons.inj (path.symm.trans path')
      refine arrives_l2 isL2' ?_
      have stack : ∃ below', pending.path = top' :: below' ∧ r.Asked top' pending.serial below' :=
        ⟨below, path, asked⟩
      unfold L2Reply
      rcases type with type | ⟨type, -⟩ <;> rw [type] <;> exact stack
    exact (addEventToUL_sent laid hc true arrives).bind fun grant sent =>
      steers_some sent rfl ⟨shared, fun p hp => by cases hp⟩
  · exact steers_some (toMc_eRd_sent laid hc demand.1 (demand_relayed demand)) rfl
      ⟨shared, fun p hp => by cases hp⟩

theorem repInvalidate_steers {found : Option (DirEntry C)} (sharing : ∀ e ∈ found, Sharing r c e) :
    CacheL2.Ends (Steers r c) (repInvalidate cfg t found lqe st) := by
  unfold repInvalidate
  split
  · exact steers_none .nil rfl
  · rename_i e
    have shared := sharing e rfl
    split
    · trivial
    · refine (ends_pop lqe).bind fun lqe' _ => (ends_top lqe').bind fun top _ => ?_
      have fewer : ∀ gotCl, Sharing r c { e with gotCl, sharedL2 := e.sharedL2.erase top } :=
        fun _ =>
        shared.fewer (Finset.erase_subset top _) rfl
      dsimp only
      split
      · trivial
      · rename_i pending hp
        split
        · exact resume_steers laid hc (fewer _) (shared.pending pending hp)
        · exact steers_some .nil rfl (fewer _)

theorem repNd_steers {found : Option (DirEntry C)} (sharing : ∀ e ∈ found, Sharing r c e) :
    CacheL2.Ends (Steers r c) (repNd cfg t found lqe st) := by
  unfold repNd
  split
  · trivial
  · rename_i e
    split
    · trivial
    · split
      · trivial
      · rename_i pending hp
        have demand := (sharing e rfl).pending pending hp
        refine (nack_sent laid hc false demand.1 (demand_relayed demand)).bind fun nack sent => ?_
        split
        · exact steers_none sent rfl
        · exact steers_some sent rfl ((sharing e rfl).free (Finset.Subset.refl _) rfl)

omit [LinearOrder C] in
theorem writeBack_sent : r.Sent (writeBack cfg t lqe) := by
  unfold writeBack
  split
  · exact toMc_sent laid hc (.inl rfl)
  · exact .nil

theorem repData_steers {found : Option (DirEntry C)} (sharing : ∀ e ∈ found, Sharing r c e) :
    CacheL2.Ends (Steers r c) (repData cfg t found lqe st) := by
  unfold repData
  split
  · trivial
  · rename_i e
    split
    · trivial
    · split
      · trivial
      · rename_i pending hp
        have shared := sharing e rfl
        have demand := shared.pending pending hp
        refine (ends_top_demand demand).bind fun top isL2 => ?_
        have arrives := @relayed_arrives _ _ _ _ laid .sRd demand.1 rfl (demand_relayed demand)
        refine (addEventToUL_sent laid hc true arrives).bind fun grant sent => ?_
        refine steers_some ((writeBack_sent laid hc).append sent) rfl
          ⟨fun l2 mem => ?_, fun p hp => by cases hp⟩
        exact (Finset.mem_insert.mp mem).elim (fun same => .inl (same ▸ isL2)) (shared.sharedL2 l2)

theorem repFromMc_steers {found : Option (DirEntry C)} (sharing : ∀ e ∈ found, Sharing r c e)
    (home : r.home lqe.address = c)
    (reply : lqe.path = [c] ∨
      relays lqe.type ∧ ∃ below, lqe.path = c :: below ∧ r.Relayed c lqe.serial below) :
    CacheL2.Ends (Steers r c) (repFromMc cfg t found lqe st) := by
  refine (ends_pop lqe).bind ?_
  rintro _ ⟨c', below, path, rfl⟩
  have arrives : ∀ type, type = lqe.type ∨ type = .write → ∀ top rest, below = top :: rest →
      relays type ∧ r.Arrives top .rep { lqe with path := below, type } := by
    intro type same top rest hp
    rcases reply with self | ⟨relays, below', path', relayed⟩
    · cases (List.cons.inj (path.symm.trans self)).2.symm.trans hp
    · obtain ⟨-, rfl⟩ := List.cons.inj (path.symm.trans path')
      have ok : Routes.relays type := by
        rcases same with rfl | rfl
        · exact relays
        · rfl
      exact ⟨ok, @relayed_arrives _ _ _ { lqe with path := below } laid type home ok relayed
        top rest hp⟩
  have goes : ∀ type, type = lqe.type ∨ type = .write →
      CacheL2.Ends (fun call => r.Sent [call])
        (addEventToULpp cfg t { lqe with path := below, type } true) := by
    intro type same
    cases hp : below with
    | nil => trivial
    | cons top rest =>
      have ok := (arrives type same top rest hp).1
      refine addEventToULpp_sent laid hc true ?_ fun top' rest' hp' => ?_
      · cases type <;> first | rfl | cases ok
      · rw [← hp] at hp' ⊢
        exact (arrives type same top' rest' hp').2
  dsimp only
  split
  · exact (goes lqe.type (.inl rfl)).bind fun call sent => ⟨sent, sharing⟩
  · rename_i e heq
    have shared := sharing e (Option.filter_eq_some_iff.mp heq).1
    split
    · exact (goes lqe.type (.inl rfl)).bind fun call sent =>
        steers_some sent rfl (shared.fewer (Finset.Subset.refl _) rfl)
    · exact (goes .write (.inr rfl)).bind fun call sent =>
        steers_some sent rfl (shared.fewer (Finset.Subset.refl _) rfl)

theorem reply_steers {found : Option (DirEntry C)} (sharing : ∀ e ∈ found, Sharing r c e)
    (reply : r.DirReply c lqe) :
      CacheL2.Ends (Steers r c) (Directory.reply cfg t found lqe st) := by
  obtain ⟨home, kind⟩ := reply
  unfold Directory.reply
  split
  · rename_i type
    split
    · exact steers_none .nil rfl
    · exact repEvict_steers laid hc home (.inl type) (sharing _ rfl)
  · rename_i type
    split
    · exact steers_none .nil rfl
    · exact repEvict_steers laid hc home (.inr type) (sharing _ rfl)
  · exact repEToX_steers sharing
  · exact repEToX_steers sharing
  · exact repInvalidate_steers laid hc sharing
  · exact repInvalidate_steers laid hc sharing
  · exact repNd_steers laid hc sharing
  · exact repNd_steers laid hc sharing
  · exact repNd_steers laid hc sharing
  · exact repData_steers laid hc sharing
  · exact repData_steers laid hc sharing
  · exact repData_steers laid hc sharing
  · refine repFromMc_steers laid hc sharing home ?_
    rcases kind with line | ⟨-, path⟩ | relayed
    · cases type : lqe.type <;> simp_all [forLine]
    · exact .inl path
    · exact .inr relayed

omit [LinearOrder C] in
theorem reqNew_steers (h : Request r c lqe) : CacheL2.Ends (Steers r c) (reqNew cfg t lqe st) := by
  have top : CacheL2.Ends (fun top => r.IsL2 top ∨ top = c) lqe.top := by
    rcases h with demand | ⟨-, -, path⟩
    · exact (ends_top_demand demand).mono (fun _ h => .inl h) fun _ h => h
    · exact (ends_top lqe).mono (fun _ ⟨_, hp⟩ => .inr (List.cons.inj (hp.symm.trans path)).1)
        fun _ h => h
  refine top.bind fun top htop => steers_some (toMc_eRd_sent laid hc h.home h.relayed) rfl ⟨?_, ?_⟩
  · exact fun l2 mem => Finset.mem_singleton.mp mem ▸ htop
  · exact fun p hp => by cases hp

theorem nack_steers (h : Request r c lqe) (sharing : Sharing r c e) :
    CacheL2.Ends (Steers r c) (nack cfg t e lqe st) :=
  (nack_sent laid hc false h.home h.relayed).bind fun _ sent => steers_some sent rfl sharing

theorem askOwner_steers {owner : C} {type : CoherenceState} {etype : EventType}
    (sharing : Sharing r c e) (demand : r.DirDemand c lqe) (howner : owner ∈ e.sharedL2)
    (asks : asksL2 etype) :
    Steers r c (askOwner cfg t e lqe type etype owner st) := by
  refine steers_some (addEventToComp_sent laid hc ?_) rfl
    (sharing.holding (Finset.Subset.refl _) rfl demand)
  exact ask_arrives laid hc (sharing.sharedL2 owner howner) demand.1 rfl asks

theorem reqRead_steers (demand : r.DirDemand c lqe) (sharing : Sharing r c e) :
    CacheL2.Ends (Steers r c) (reqRead cfg t e lqe st) := by
  refine (ends_top lqe).bind fun top _ => ?_
  split
  · exact nack_steers laid hc (.inl demand) sharing
  · split
    · split
      · trivial
      · split
        · trivial
        · rename_i owner howner
          split
          · exact askOwner_steers laid hc sharing demand (first_mem howner) rfl
          · exact askOwner_steers laid hc sharing demand (first_mem howner) rfl
    · split
      · split
        · trivial
        · rename_i owner howner
          exact askOwner_steers laid hc sharing demand (first_mem howner) rfl
      · trivial

theorem invalidation_fits {owner : C} (howner : r.IsL2 owner ∨ owner = c)
    (home : r.home lqe.address = c) {type : EventType}
    (asks : type = .invalidate ∨ type = .invalidateNd) :
    r.Sent [invalidation cfg t lqe owner type] := by
  refine addEventToComp_sent laid hc (ask_arrives laid hc howner home rfl ?_)
  rcases asks with rfl | rfl <;> rfl

theorem invalidations_fit (sharing : Sharing r c e) (home : r.home lqe.address = c) :
    r.Sent (invalidations cfg t e lqe) := by
  obtain ⟨-, -, l2s, -⟩ := laid.directory c cfg hc
  have one : ∀ (owner : C) (type : EventType), r.IsL2 owner ∨ owner = c →
      type = .invalidate ∨ type = .invalidateNd → r.Fits (invalidation cfg t lqe owner type) :=
    fun owner type howner asks => invalidation_fits laid hc howner home asks _ List.mem_cons_self
  have either : ∀ (p : Prop) [Decidable p],
      (if p then EventType.invalidate else .invalidateNd) = .invalidate ∨
        (if p then EventType.invalidate else .invalidateNd) = .invalidateNd := fun p _ => by
    split
    · exact .inl rfl
    · exact .inr rfl
  intro call hcall
  unfold invalidations at hcall
  split at hcall
  · obtain ⟨l2, mem, rfl⟩ := List.mem_map.mp hcall
    split
    · exact one l2 _ (.inl (l2s l2 mem)) (.inl rfl)
    · split
      · exact one l2 _ (.inl (l2s l2 mem)) (.inr rfl)
      · have nop : r.L2Reply l2 ((Lqe.new l2 .nop lqe.address lqe.thId).push cfg.self) := trivial
        exact addEventToComp_sent laid hc (arrives_l2 (l2s l2 mem) nop) _ List.mem_cons_self
  · obtain ⟨l2, mem, rfl⟩ := List.mem_map.mp hcall
    exact one l2 _ (sharing.sharedL2 l2 (mem_inOrder.mp mem)) (either _)

theorem reqWrite_steers (demand : r.DirDemand c lqe) (serial : lqe.serial ≠ none)
    (sharing : Sharing r c e) : CacheL2.Ends (Steers r c) (reqWrite cfg t e lqe st) := by
  have held : ∀ e' : DirEntry C, e'.sharedL2 = e.sharedL2 → e'.pending = some lqe →
    Sharing r c e' :=
    fun e' same pending => sharing.holding same.subset pending demand
  unfold reqWrite
  split
  · split
    · trivial
    · refine (ends_top lqe).bind fun top _ => ?_
      split
      · have arrives : ∀ top below, ({ lqe with type := .writeNd } : Lqe C).path = top :: below →
            r.Arrives top .rep { lqe with type := .writeNd } := by
          intro top below path
          obtain ⟨-, -, l2, below', path', isL2, asked⟩ := demand
          obtain ⟨rfl, rfl⟩ := List.cons.inj (path.symm.trans path')
          exact arrives_l2 isL2 ⟨below, path, serial, asked⟩
        exact (addEventToULpp_sent laid hc false rfl arrives).bind fun call sent =>
          steers_some sent rfl (sharing.fewer (Finset.Subset.refl _) rfl)
      · split
        · trivial
        · rename_i owner howner
          exact steers_some (invalidation_fits laid hc
            (sharing.sharedL2 owner (first_mem howner)) demand.1
            (.inl rfl)) rfl (held _ rfl rfl)
  · split
    · trivial
    · exact steers_some (invalidations_fit laid hc sharing demand.1) rfl (held _ rfl rfl)
  · split
    · trivial
    · refine (ends_top lqe).bind fun top _ => ?_
      split
      · have arrives := @relayed_arrives _ _ _ _ laid .nack demand.1 rfl (demand_relayed demand)
        exact (addEventToUL_sent laid hc false arrives).bind fun call sent =>
          steers_some sent rfl sharing
      · split
        · trivial
        · rename_i owner howner
          exact steers_some (invalidation_fits laid hc
            (sharing.sharedL2 owner (first_mem howner)) demand.1
            (.inl rfl)) rfl (held _ rfl rfl)
  · trivial

theorem request_steers {found : Option (DirEntry C)} (sharing : ∀ e ∈ found, Sharing r c e)
    (h : Request r c lqe) : CacheL2.Ends (Steers r c) (request cfg t found lqe st) := by
  unfold request
  split
  · exact reqNew_steers laid hc h
  · rename_i e
    split
    · exact nack_steers laid hc h (sharing e rfl)
    · split
      · rename_i read
        exact reqRead_steers laid hc (h.demand (.inl read)) (sharing e rfl)
      · split
        · rename_i write
          have demand := h.demand (.inr write)
          refine reqWrite_steers laid hc demand ?_ (sharing e rfl)
          exact (demand.2.1.resolve_left fun read => by rw [write] at read; cases read).2
        · trivial

end Handlers

section Process
variable {s : Directory C}

theorem orderly_addReq (h : Orderly r cfg c s) (req : Request r c lqe) :
    Orderly r cfg c (s.addReqEvent cfg t lqe) :=
  ⟨h.messages.addReq req _, h.entries, h.lines, h.cached⟩

theorem orderly_addRep (h : Orderly r cfg c s) (reply : r.DirReply c lqe) :
    Orderly r cfg c (s.addRepEvent cfg t lqe) := by
  unfold addRepEvent
  split
  · rename_i type
    refine orderly_addReq h (.inr ⟨reply.1, type, ?_⟩)
    rcases reply.2 with line | ⟨-, path⟩ | ⟨relayed, -⟩
    · rw [type] at line
      cases line
    · exact path
    · rw [type] at relayed
      cases relayed
  · exact ⟨h.messages.addRep reply _, h.entries, h.lines, h.cached⟩

theorem Orderly.setEntry (h : Orderly r cfg c s) (home : r.home lqe.address = c)
    {entry : Option (DirEntry C)} (he : ∀ e ∈ entry, Sharing r c e) :
    Orderly r cfg c (s.setEntry (cfg.lineOf lqe.address) entry) := by
  refine ⟨h.messages, fun line e mem => ?_, fun line mem => ?_, h.cached⟩
  · by_cases hl : line = cfg.lineOf lqe.address
    · subst hl
      simp only [Directory.setEntry, Function.update_self] at mem
      exact he e mem
    · simp only [Directory.setEntry, Function.update_of_ne hl] at mem
      exact h.entries line e mem
  · by_cases hl : line = cfg.lineOf lqe.address
    · exact ⟨lqe.address, hl.symm, home⟩
    · simp only [Directory.setEntry, Function.update_of_ne hl] at mem
      exact h.lines line mem

theorem Orderly.setCache (h : Orderly r cfg c s) {set : Nat} {keys : List Nat}
    (hk : ∀ key ∈ keys, Homed r cfg c key) : Orderly r cfg c (s.setCache set keys) := by
  refine ⟨h.messages, h.entries, h.lines, fun set' key mem => ?_⟩
  by_cases hs : set' = set
  · subst hs
    simp only [Directory.setCache, Function.update_self] at mem
    exact hk key mem
  · simp only [Directory.setCache, Function.update_of_ne hs] at mem
    exact h.cached set' key mem

theorem Orderly.front (h : Orderly r cfg c s) (home : r.home lqe.address = c) {set : Nat}
    {keys : List Nat} (sub : keys ⊆ s.dirCache set) :
      Orderly r cfg c (s.setCache set (cfg.lineOf lqe.address :: keys)) := by
  refine h.setCache fun key mem => ?_
  rcases List.mem_cons.mp mem with rfl | mem
  · exact ⟨lqe.address, rfl, home⟩
  · exact h.cached set key (sub mem)

theorem Orderly.stats (h : Orderly r cfg c s) (stats : DirStats) :
    Orderly r cfg c { s with stats } :=
  ⟨h.messages, h.entries, h.lines, h.cached⟩

theorem Orderly.apply (h : Orderly r cfg c s) (home : r.home lqe.address = c) {o : Outcome C}
    (steers : Steers r c o) : Orderly r cfg c (s.apply cfg (cfg.lineOf lqe.address) o) := by
  have entry := (h.setEntry home steers.entry).stats o.stats
  unfold Directory.apply
  dsimp only
  split
  · exact entry.setCache fun key mem => entry.cached _ key (List.mem_of_mem_erase mem)
  · exact entry

theorem scanVictim_forall {P : Nat → DirEntry C → Prop} (keys : List Nat)
    {dir : Nat → Option (DirEntry C)} (h : ∀ line, ∀ e ∈ dir line, P line e)
    (fresh : ∀ key ∈ keys, P key {}) :
    ∀ line, ∀ e ∈ (scanVictim dir keys).1 line, P line e := by
  induction keys generalizing dir with
  | nil => exact h
  | cons key keys ih =>
    have filled : ∀ line, ∀ e ∈ Function.update dir key (some ((dir key).getD {})) line, P
      line e := by
      intro line e mem
      by_cases hl : line = key
      · subst hl
        rw [Function.update_self, Option.mem_some_iff] at mem
        cases hd : dir line with
        | none =>
          rw [hd] at mem
          exact mem ▸ fresh line List.mem_cons_self
        | some e' =>
          rw [hd] at mem
          exact mem ▸ h line e' hd
      · rw [Function.update_of_ne hl] at mem
        exact h line e mem
    have later := ih filled fun k mem => fresh k (List.mem_cons_of_mem key mem)
    unfold scanVictim
    dsimp only
    split
    · exact later
    · exact filled

theorem Orderly.scan (h : Orderly r cfg c s) {set : Nat} {dir : Nat → Option (DirEntry C)}
    {victim : Option Nat} (scan : scanVictim s.dir (s.dirCache set) = (dir, victim)) :
    Orderly r cfg c { s with dir } := by
  have all := scanVictim_forall (P := fun line e => Sharing r c e ∧ Homed r cfg c line)
    (s.dirCache set)
    (fun line e mem => ⟨h.entries line e mem, h.lines line (Option.isSome_iff_exists.mpr ⟨e, mem⟩)⟩)
    fun key mem => ⟨⟨fun l2 mem => absurd mem (Finset.notMem_empty l2), fun p hp => by cases hp⟩,
      h.cached set key mem⟩
  rw [scan] at all
  refine ⟨h.messages, fun line e mem => (all line e mem).1, fun line mem => ?_, h.cached⟩
  obtain ⟨e, he⟩ := Option.isSome_iff_exists.mp mem
  exact (all line e he).2

/-- What the directory cache leaves to be done: `good` is asked of a message that goes on. -/
def Staged (r : Routes C) (cfg : DirConfig C) (c : C) (good : Lqe C → Prop) : Stage C → Prop
  | .stop s effects => Orderly r cfg c s ∧ r.Sent effects.calls
  | .go s lqe calls _ => Orderly r cfg c s ∧ good lqe ∧ r.Sent calls

theorem retry_staged {good : Lqe C → Prop} (h : Orderly r cfg c s) (reply : r.DirReply c lqe) :
    Staged r cfg c good (retry cfg s t lqe) :=
  ⟨orderly_addRep h reply, .nil⟩

variable (laid : r.Laid) (hc : r.part c = .directory cfg)
include laid hc

theorem infoMessage_sent {type : EventType} {address : Nat} (home : r.home address = c)
    (h : type ∈ [EventType.evict, .dirEvict, .rdDirInfoReq, .rdDirInfoRep]) :
    r.Sent [infoMessage cfg t type address] := by
  obtain ⟨self, -⟩ := laid.directory c cfg hc
  refine toMc_sent laid hc ?_
  simp only [List.mem_cons, List.not_mem_nil, or_false] at h
  rcases h with rfl | rfl | rfl | rfl
  · exact .inl rfl
  · exact .inl rfl
  · exact .inr ⟨by simp [Lqe.new], home, .inr (.inl ⟨rfl, congrArg ([·]) self⟩)⟩
  · exact .inr ⟨by simp [Lqe.new], home, .inl rfl⟩

theorem cacheOnReply_staged (h : Orderly r cfg c s) (sharing : Sharing r c e)
    (reply : r.DirReply c lqe) :
    Staged r cfg c (r.DirReply c) (cacheOnReply cfg t s e lqe) := by
  have marked : ∀ b, ∀ e' ∈ some { e with notInDc := b }, Sharing r c e' := fun b e' mem => by
    rw [Option.mem_some_iff] at mem
    exact mem ▸ sharing.fewer (Finset.Subset.refl _) rfl
  have info : r.Sent [infoMessage cfg t .rdDirInfoRep lqe.address] :=
    infoMessage_sent laid hc reply.1 (by simp)
  have out : r.Sent [infoMessage cfg t .dirEvict lqe.address] :=
    infoMessage_sent laid hc reply.1 (by simp)
  unfold cacheOnReply
  dsimp only
  split
  · exact ⟨h, reply, .nil⟩
  · split
    · split
      · exact ⟨(h.front reply.1 List.erase_subset).setEntry reply.1 (marked false), .nil⟩
      · split
        · exact retry_staged (h.front reply.1 List.erase_subset) reply
        · exact ⟨h.front reply.1 List.erase_subset, reply, .nil⟩
    · split
      · split
        · rename_i dir scan
          exact retry_staged ((h.scan scan).stats _) reply
        · rename_i dir victim scan
          exact ⟨(((h.scan scan).stats _).front reply.1 List.erase_subset).setEntry reply.1
            (marked true), reply, out.cons info⟩
      · exact ⟨((h.stats _).front reply.1 (List.Subset.refl _)).setEntry reply.1 (marked true),
          reply, info⟩

variable [LinearOrder C]

theorem refuse_staged {good : Lqe C → Prop} (h : Orderly r cfg c s) (req : Request r c lqe) :
    CacheL2.Ends (Staged r cfg c good) (refuse cfg t s lqe) :=
  (nack_sent laid hc false req.home req.relayed).bind fun _ sent => ⟨h.stats _, sent⟩

theorem cacheOnNew_staged (h : Orderly r cfg c s) (req : Request r c lqe) :
    CacheL2.Ends (Staged r cfg c (Request r c)) (cacheOnNew cfg t s lqe) := by
  have out : r.Sent [infoMessage cfg t .dirEvict lqe.address] :=
    infoMessage_sent laid hc req.home (by simp)
  unfold cacheOnNew
  dsimp only
  split
  · exact ⟨h, req, .nil⟩
  · split
    · split
      · rename_i dir scan
        exact refuse_staged laid hc ((h.scan scan).stats _) req
      · rename_i dir victim scan
        exact ⟨((h.scan scan).stats _).front req.home List.erase_subset, req, out⟩
    · exact ⟨(h.stats _).front req.home (List.Subset.refl _), req, .nil⟩

theorem cacheOnFound_staged (h : Orderly r cfg c s) (sharing : Sharing r c e)
    (req : Request r c lqe) :
    CacheL2.Ends (Staged r cfg c (Request r c)) (cacheOnFound cfg t s e lqe) := by
  unfold cacheOnFound
  dsimp only
  split
  · exact ⟨h, req, .nil⟩
  · split
    · split
      · split
        · trivial
        · rename_i pending hp
          refine ⟨(h.front req.home List.erase_subset).setEntry req.home fun e' mem => ?_,
            .inl (sharing.pending pending hp), .nil⟩
          rw [Option.mem_some_iff] at mem
          exact mem ▸ sharing.free (Finset.Subset.refl _) rfl
      · split
        · exact refuse_staged laid hc (h.front req.home List.erase_subset) req
        · exact ⟨h.front req.home List.erase_subset, req, .nil⟩
    · split
      · trivial
      · rename_i other
        have demand : r.DirDemand c lqe := req.resolve_right fun info => other info.2.1
        have held : ∀ e' ∈ some { e with pending := some lqe, notInDc := true }, Sharing r c e' :=
          fun e' mem => by
            rw [Option.mem_some_iff] at mem
            exact mem ▸ sharing.holding (Finset.Subset.refl _) rfl demand
        have info : r.Sent [infoMessage cfg t .rdDirInfoReq lqe.address] :=
          infoMessage_sent laid hc req.home (by simp)
        have out : r.Sent [infoMessage cfg t .evict lqe.address] :=
          infoMessage_sent laid hc req.home (by simp)
        split
        · split
          · rename_i dir scan
            exact refuse_staged laid hc ((h.scan scan).stats _) req
          · rename_i dir victim scan
            exact ⟨(((h.scan scan).stats _).front req.home List.erase_subset).setEntry
              req.home held, out.cons info⟩
        · exact ⟨((h.stats _).front req.home (List.Subset.refl _)).setEntry req.home held, info⟩

theorem serveReply_sent {calls : List (Call C)} (h : Orderly r cfg c s) (reply : r.DirReply c lqe)
    (sent : r.Sent calls) :
    CacheL2.Ends (fun p => Orderly r cfg c p.1 ∧ r.Sent p.2.calls) (serveReply cfg t s lqe calls) :=
  CacheL2.Ends.bind (reply_steers laid hc (h.entries _) reply) fun _ steers =>
    ⟨h.apply reply.1 steers, sent.append steers.sent⟩

theorem processReply_sent (h : Orderly r cfg c s) (reply : r.DirReply c lqe) :
    CacheL2.Ends (fun p => Orderly r cfg c p.1 ∧ r.Sent p.2.calls) (processReply cfg t s lqe) := by
  unfold processReply
  split
  · exact serveReply_sent laid hc h reply .nil
  · rename_i e he
    split
    · have staged := cacheOnReply_staged (t := t) laid hc h (h.entries _ e he) reply
      cases hs : cacheOnReply cfg t s e lqe with
      | stop s' effects =>
        rw [hs] at staged
        exact staged
      | go s' lqe' calls deleted =>
        rw [hs] at staged
        exact serveReply_sent laid hc staged.1 staged.2.1 staged.2.2
    · exact serveReply_sent laid hc h reply .nil

theorem processRequest_sent (h : Orderly r cfg c s) (req : Request r c lqe) :
    CacheL2.Ends (fun p => Orderly r cfg c p.1 ∧ r.Sent p.2.calls)
      (processRequest cfg t s lqe) := by
  have staged : CacheL2.Ends (Staged r cfg c (Request r c)) (cacheOnRequest cfg t s lqe) := by
    unfold cacheOnRequest
    split
    · exact cacheOnNew_staged laid hc h req
    · rename_i e he
      exact cacheOnFound_staged laid hc h (h.entries _ e he) req
  unfold processRequest
  refine staged.bind fun stage staged => ?_
  cases stage with
  | stop s' effects => exact staged
  | go s' lqe' calls deleted =>
    obtain ⟨orderly, good, sent⟩ := staged
    exact serveRequest_meets (Meets.mono (request_steers laid hc (orderly.entries _) good)
      (fun o steers => ⟨orderly.apply good.home steers, sent.append steers.sent⟩) fun _ h => h)

theorem processEvent_sent (h : Orderly r cfg c s) :
    CacheL2.Ends (fun p => Orderly r cfg c p.1 ∧ r.Sent p.2.calls) (processEvent cfg t s) := by
  have taken : Orderly r cfg c (s.takeEvents t) :=
    ⟨h.messages.takeAll t, h.entries, h.lines, h.cached⟩
  have woken : ∀ {x : Except Abort (Directory C × Effects C)} (rest : Directory C),
      CacheL2.Ends (fun p => Orderly r cfg c p.1 ∧ r.Sent p.2.calls) x →
      CacheL2.Ends (fun p => Orderly r cfg c p.1 ∧ r.Sent p.2.calls)
        (x >>= fun p => return if rest.repQ.isEmpty && rest.reqQ.isEmpty then p
          else (p.1, { p.2 with wakeups := (t + cfg.processInterval) :: p.2.wakeups })) := by
    intro x rest hx
    refine hx.bind fun p hp => ?_
    show Orderly r cfg c (if _ then p else _).1 ∧ r.Sent (if _ then p else _).2.calls
    split
    · exact hp
    · exact hp
  unfold processEvent serve
  dsimp only
  split
  · rename_i lqe repQ hq
    have messages := taken.messages
    rw [hq] at messages
    obtain ⟨reply, rest⟩ := messages.uncons
    have orderly : Orderly r cfg c { s.takeEvents t with repQ } :=
      ⟨rest, taken.entries, taken.lines, taken.cached⟩
    exact woken { s.takeEvents t with repQ } (processReply_sent laid hc orderly reply)
  · rename_i lqe reqQ _ hq
    have messages := taken.messages
    rw [hq] at messages
    have req : Request r c lqe := messages.reqQs 0 lqe List.mem_cons_self
    have orderly : Orderly r cfg c { s.takeEvents t with reqQ } :=
      ⟨⟨messages.reqEvent, messages.repEvent, messages.repQ, fun i a ha =>
        messages.reqQs i a (List.mem_cons_of_mem lqe ha)⟩, taken.entries, taken.lines, taken.cached⟩
    exact woken { s.takeEvents t with reqQ } (processRequest_sent laid hc orderly req)
  · trivial

end Process
end McSim.Directory
