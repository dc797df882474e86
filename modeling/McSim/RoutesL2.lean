import McSim.Routes
import McSim.TrafficL2

/-! Where a second-level cache sends its elements: upwards to the L1 on top of a stack or to those
that share the line, downwards to the home of the address. -/

namespace McSim.CacheL2

open Contract Routes

variable {C : Type} {r : Routes C} {cfg : L2Config C} {t set : Nat} {lqe : Lqe C} {e : L2Entry C}
  {st : L2Stats} {calls : List (Call C)}

structure Steers (r : Routes C) (l2 : C) (o : Outcome C) : Prop where
  sent : r.Sent o.calls
  way : o.way.Forall (Sharing r l2)

theorem Sharing.congr {l2 : C} {e' : L2Entry C} (h : Sharing r l2 e)
    (shared : e'.sharedL1 = e.sharedL1) (pending : e'.pending = e.pending) : Sharing r l2 e' :=
  ⟨shared ▸ h.sharedL1, pending ▸ h.pending⟩

theorem Sharing.joined [LinearOrder C] {l2 l1 : C} {e' : L2Entry C} (h : Sharing r l2 e)
    (hl1 : r.IsL1Of l2 l1) (shared : e'.sharedL1 ⊆ insert l1 e.sharedL1)
    (pending : e'.pending = e.pending) :
    Sharing r l2 e' := by
  refine ⟨fun c mem => ?_, pending ▸ h.pending⟩
  rcases Finset.mem_insert.mp (shared mem) with rfl | mem
  · exact hl1
  · exact h.sharedL1 c mem

theorem Sharing.done {l2 : C} {e' : L2Entry C} (shared : ∀ c ∈ e'.sharedL1, r.IsL1Of l2 c)
    (pending : e'.pending = none) : Sharing r l2 e' :=
  ⟨shared, fun p hp => by rw [pending] at hp; cases hp⟩

theorem Sharing.hold {l2 : C} {e' : L2Entry C} (shared : ∀ c ∈ e'.sharedL1, r.IsL1Of l2 c)
    (pending : e'.pending = some lqe) (asks : asksL2 lqe.type)
    (head : lqe.path.head? = some (r.home lqe.address)) : Sharing r l2 e' := by
  refine ⟨shared, fun p hp => ?_⟩
  rw [pending] at hp
  cases hp
  exact ⟨asks, head⟩

theorem toL1_sent {c l1 : C} (hl1 : r.IsL1Of c l1) (h : r.L1Reply c lqe) :
    r.Sent [toL1 cfg t l1 lqe] :=
  Sent.one (fits_l1 hl1 rfl h)

theorem answer_sent {c l1 : C} {below : List C} (path : lqe.path = l1 :: below)
    (hl1 : r.IsL1Of c l1) (demand : r.Demand lqe.serial below)
    (type : lqe.type ∈ [EventType.read, .write, .nack, .rdBypass]) :
      r.Sent [toL1 cfg t l1 lqe] := by
  refine toL1_sent hl1 ?_
  have stack : ∃ c below, lqe.path = c :: below ∧ r.Demand lqe.serial below :=
    ⟨l1, below, path, demand⟩
  simp only [List.mem_cons, List.not_mem_nil, or_false] at type
  unfold L1Reply
  rcases type with type | type | type | type <;> rw [type] <;> exact stack

theorem evicts_sent {c : C} {cs : List C} (shared : ∀ l1 ∈ cs, r.IsL1Of c l1) (address thId : Nat) :
    r.Sent (cs.map fun l1 => toL1 cfg t l1 (Lqe.new cfg.self .evict address thId)) := by
  intro call hc
  obtain ⟨l1, mem, rfl⟩ := List.mem_map.mp hc
  exact fits_l1 (shared l1 mem) rfl trivial

section Handlers
variable [LinearOrder C]

theorem reqL1Evict_sent {c : C} (shared : ∀ l1 ∈ e.sharedL1, r.IsL1Of c l1) (address : Nat)
    (always : Bool) :
    Ends r.Sent (reqL1Evict cfg t e address lqe always) := by
  unfold reqL1Evict
  split
  · exact evicts_sent (fun l1 mem => shared l1 (mem_inOrder.mp mem)) _ _
  · split
    · exact Sent.nil
    · refine (ends_top lqe).bind fun top _ => ?_
      have others : ∀ l1 ∈ (inOrder e.sharedL1).filter (· ≠ top), r.IsL1Of c l1 := fun l1 mem =>
        shared l1 (mem_inOrder.mp (List.mem_filter.mp mem).1)
      exact evicts_sent others _ _

variable (laid : r.Laid) {c : C} {ways : Nat} (hc : r.part c = .cachel2 cfg ways)
include laid hc

omit [LinearOrder C] in
theorem viaCrossbar_sent (isData : Bool) (forLine : forLine lqe.type)
    (way : Crossbar.toDirectory lqe.type ∨ lqe.path.head? = some (r.home lqe.address)) :
    r.Sent [viaCrossbar cfg t lqe isData] := by
  obtain ⟨rfl, -, crossbar, -⟩ := laid.cachel2 c cfg ways hc
  have reply : r.DirReply (r.home lqe.address) lqe := ⟨rfl, .inl forLine⟩
  refine Sent.one (fits_crossbar crossbar fun xbar hx d hd => ?_)
  have home : d = r.home lqe.address := by
    unfold viaCrossbar Part.priority Crossbar.destination at hd
    dsimp only at hd
    split at hd
    · rw [← Option.some.inj hd]
      exact laid.crossbar _ xbar hx lqe.address
    · rename_i no
      rcases way with way | way
      · exact (no way).elim
      · exact Option.some.inj (hd.symm.trans way)
  rw [home]
  exact arrives_directory (laid.home _) reply

omit [LinearOrder C] in
theorem addEventToLL_sent (isData : Bool) (forLine : forLine lqe.type)
    (way : Crossbar.toDirectory lqe.type ∨ lqe.path.head? = some (r.home lqe.address)) :
    r.Sent [addEventToLL cfg t lqe isData] := by
  obtain ⟨self, isDir, -, same⟩ := laid.cachel2 c cfg ways hc
  unfold addEventToLL
  split
  · rename_i near
    exact Sent.one (fits_directory isDir rfl ⟨(same _ near).symm, .inl forLine⟩)
  · exact viaCrossbar_sent laid hc isData forLine way

theorem addEventToLLTop_sent (isData : Bool) (forLine : forLine lqe.type)
    (way : lqe.path.head? = some (r.home lqe.address) ∨
      Crossbar.toDirectory lqe.type ∧ lqe.path.head? = some c) :
    Ends (fun call => r.Sent [call]) (addEventToLLTop cfg t lqe isData) := by
  obtain ⟨self, isDir, -, -⟩ := laid.cachel2 c cfg ways hc
  refine (ends_top lqe).bind fun top ⟨below, path⟩ => ?_
  show r.Sent [if top = cfg.directory then viaDirectory cfg t lqe else viaCrossbar cfg t lqe isData]
  rw [path, List.head?_cons] at way
  split
  · rename_i here
    refine Sent.one (fits_directory isDir rfl ⟨?_, .inl forLine⟩)
    rcases way with way | ⟨-, way⟩
    · exact (Option.some.inj way).symm.trans here
    · have isL2 : r.IsL2 c := ⟨cfg, ways, hc⟩
      rw [← here, Option.some.inj way] at isDir
      exact (isL2.not_directory isDir).elim
  · refine viaCrossbar_sent laid hc isData forLine ?_
    rw [path, List.head?_cons]
    exact way.symm.imp_left (·.1)

omit [LinearOrder C] in
theorem newToLL_sent {type : EventType} (address thId : Nat) (isData : Bool)
    (h : forLine type ∧ Crossbar.toDirectory type) :
    r.Sent [addEventToLL cfg t (Lqe.new cfg.self type address thId) isData] :=
  addEventToLL_sent laid hc isData h.1 (.inl h.2)

omit laid hc [LinearOrder C] in
theorem forLine_of_asksL2 {type : EventType} (h : asksL2 type) : forLine type := by
  cases type <;> first | rfl | cases h

theorem returnPending_sent (h : Sharing r c e) : Ends r.Sent (returnPending cfg t e) := by
  unfold returnPending
  split
  · exact Sent.nil
  · rename_i pending hp
    obtain ⟨asks, head⟩ := h.pending pending hp
    exact (addEventToLLTop_sent laid hc true (forLine_of_asksL2 asks) (.inl head)).bind
      fun call sent => sent

omit [LinearOrder C] in
theorem evictVictim_sent (address thId : Nat) (victim : L2Entry C) :
    r.Sent (evictVictim cfg t address thId victim) := by
  unfold evictVictim
  split
  · exact .nil
  · exact newToLL_sent laid hc address thId _ ⟨rfl, rfl⟩

omit laid hc [LinearOrder C] in
theorem nackRequester_sent (asked : r.Asked c lqe.serial lqe.path) :
    Ends r.Sent (nackRequester cfg t lqe) := by
  unfold nackRequester
  split
  · rename_i long
    obtain ⟨l1, below, path, hl1, demand⟩ := asked.demand (.inr long)
    refine (ends_top lqe).bind fun top ⟨below', hp⟩ => ?_
    obtain ⟨rfl, -⟩ := List.cons.inj (hp.symm.trans path)
    exact answer_sent path hl1 demand (by simp)
  · exact Sent.nil

omit laid hc in
theorem turnAway_sent (h : Sharing r c e) (lent : r.Lent c lqe.serial lqe.path) :
    Ends (fun p => r.Sent p.1) (turnAway cfg t set e lqe) := by
  have nack : ∀ {top : C} {below : List C}, lqe.path = top :: below → r.IsL1Of c top ∧
      r.Sent [toL1 cfg t top { lqe with type := .nack }] := by
    intro top below hp
    rcases lent with none | ⟨l1, below', path, hl1, demand⟩
    · cases hp.symm.trans none
    · obtain ⟨rfl, -⟩ := List.cons.inj (hp.symm.trans path)
      exact ⟨hl1, answer_sent path hl1 demand (by simp)⟩
  unfold turnAway
  dsimp only
  split
  · exact Sent.nil
  · exact (ends_top lqe).bind fun top ⟨below, hp⟩ => (nack hp).2
  · refine (ends_top lqe).bind fun top ⟨below, hp⟩ => ?_
    obtain ⟨hl1, sent⟩ := nack hp
    have joined : ∀ l1 ∈ insert top e.sharedL1, r.IsL1Of c l1 := fun l1 mem => by
      rcases Finset.mem_insert.mp mem with rfl | mem
      · exact hl1
      · exact h.sharedL1 l1 mem
    exact (reqL1Evict_sent (e := { e with sharedL1 := insert top e.sharedL1 }) joined _ _).bind
      fun calls evicts => sent.cons evicts

theorem repWriteNd_steers {found : Option (L2Entry C)} (sharing : ∀ e ∈ found, Sharing r c e)
    (reply : ∃ below, lqe.path = c :: below ∧ lqe.serial ≠ none ∧ r.Asked c lqe.serial below) :
    Ends (Steers r c) (repWriteNd cfg t set found lqe st) := by
  obtain ⟨stack, path, serial, asked⟩ := reply
  obtain ⟨l1, below, rfl, hl1, demand⟩ := asked.demand (.inl serial)
  refine (ends_pop lqe).bind ?_
  rintro _ ⟨c', stack', hp, rfl⟩
  obtain ⟨-, rfl⟩ := List.cons.inj (hp.symm.trans path)
  have answer : ∀ type ∈ [EventType.read, .write, .nack, .rdBypass],
      r.Sent [toL1 cfg t l1 { lqe with path := l1 :: below, type }] := fun type mem =>
    answer_sent rfl hl1 demand mem
  split
  · refine (ends_top _).bind fun top ⟨below', hp'⟩ => ⟨?_, trivial⟩
    obtain ⟨rfl, -⟩ := List.cons.inj hp'
    have given : r.Sent [addEventToLL cfg t (Lqe.new cfg.self .eToI lqe.address lqe.thId) false] :=
      newToLL_sent laid hc _ _ false ⟨rfl, rfl⟩
    exact (answer .nack (by simp)).cons given
  · rename_i e heq
    have shared := sharing e (Option.filter_eq_some_iff.mp heq).1
    refine (reqL1Evict_sent shared.sharedL1 _ _).bind fun evicts sent => ?_
    refine (ends_top _).bind fun top ⟨below', hp'⟩ => ⟨?_, ?_⟩
    · obtain ⟨rfl, -⟩ := List.cons.inj hp'
      have done : r.Sent [addEventToLL cfg t (Lqe.new cfg.self .eToM lqe.address lqe.thId) false] :=
        newToLL_sent laid hc _ _ false ⟨rfl, rfl⟩
      exact sent.append ((answer .write (by simp)).cons done)
    · obtain ⟨rfl, -⟩ := List.cons.inj hp'
      exact ⟨fun l mem => Finset.mem_singleton.mp mem ▸ hl1, shared.pending⟩

omit laid hc in
theorem install_steers {etype : EventType} {st' : L2Stats} (shared : Bool)
    (asked : r.Asked c lqe.serial lqe.path) (sent : r.Sent calls) (h : Sharing r c e) :
    Ends (Steers r c) (install cfg t etype shared e lqe calls st') := by
  unfold install
  dsimp only
  split
  · rename_i long
    obtain ⟨l1, below, path, hl1, demand⟩ := asked.demand (.inr long)
    refine (ends_top lqe).bind fun top ⟨below', hp⟩ => ?_
    obtain ⟨rfl, -⟩ := List.cons.inj (hp.symm.trans path)
    refine ⟨sent.append (answer_sent path hl1 demand ?_), h.joined hl1 (Finset.Subset.refl _) rfl⟩
    unfold filledAnswer
    dsimp only
    split <;> simp
  · exact ⟨sent, h.congr rfl rfl⟩

theorem fillVictim_steers {etype : EventType} {victim : L2Entry C}
    (asked : r.Asked c lqe.serial lqe.path) (h : Sharing r c victim) :
    Ends (Steers r c) (fillVictim cfg t set etype victim lqe st) := by
  unfold fillVictim
  split
  · refine (nackRequester_sent asked).bind fun nack sent => ⟨?_, trivial⟩
    exact sent.append (newToLL_sent laid hc _ _ false ⟨rfl, rfl⟩)
  · split
    · exact install_steers _ asked .nil (h.congr rfl rfl)
    · refine (reqL1Evict_sent h.sharedL1 _ _).bind fun evicts sent => ?_
      refine install_steers _ asked (sent.append (evictVictim_sent laid hc _ _ _)) ?_
      exact ⟨fun l mem => absurd mem (Finset.notMem_empty l), h.pending⟩

omit laid hc in
theorem fillFound_steers {etype : EventType} (asked : r.Asked c lqe.serial lqe.path)
    (h : Sharing r c e) :
    Ends (Steers r c) (fillFound cfg t set etype e lqe st) := by
  unfold fillFound
  split
  · refine (reqL1Evict_sent h.sharedL1 _ _).bind fun evicts sent => ?_
    exact install_steers _ asked sent ⟨fun l mem => absurd mem (Finset.notMem_empty l), h.pending⟩
  · split
    · dsimp only
      split
      · rename_i long
        obtain ⟨l1, below, path, hl1, demand⟩ := asked.demand (.inr long)
        refine (ends_top lqe).bind fun top ⟨below', hp⟩ => ⟨?_, trivial⟩
        obtain ⟨rfl, -⟩ := List.cons.inj (hp.symm.trans path)
        exact answer_sent path hl1 demand (by simp)
      · exact ⟨.nil, trivial⟩
    · exact install_steers _ asked .nil h

theorem repFill_steers {found : Option (L2Entry C)} {victim : L2Entry C}
    (sharing : ∀ e ∈ found, Sharing r c e) (hv : Sharing r c victim)
    (reply : ∃ below, lqe.path = c :: below ∧ r.Asked c lqe.serial below) :
    Ends (Steers r c) (repFill cfg t set found victim lqe st) := by
  obtain ⟨stack, path, asked⟩ := reply
  refine (ends_pop lqe).bind ?_
  rintro _ ⟨c', stack', hp, rfl⟩
  obtain ⟨-, rfl⟩ := List.cons.inj (hp.symm.trans path)
  cases found with
  | none => exact fillVictim_steers laid hc asked hv
  | some e => exact fillFound_steers asked (sharing e rfl)

theorem repMToX_steers {found : Option (L2Entry C)} (sharing : ∀ e ∈ found, Sharing r c e)
    (reply : ∃ top below, lqe.path = top :: below ∧ r.Lent c lqe.serial below) :
    Ends (Steers r c) (repMToX cfg t set found lqe st) := by
  obtain ⟨top, stack, path, lent⟩ := reply
  refine (ends_pop lqe).bind ?_
  rintro _ ⟨c', stack', hp, rfl⟩
  obtain ⟨-, rfl⟩ := List.cons.inj (hp.symm.trans path)
  cases found with
  | none => trivial
  | some e =>
    have shared := sharing e rfl
    dsimp only
    split
    · refine (@turnAway_sent _ _ _ _ _ { lqe with path := stack' } _ _ _ shared lent).bind
        fun p turned => ?_
      refine (returnPending_sent laid hc shared).bind fun back sent => ⟨turned.append sent, ?_⟩
      refine Sharing.done (fun l mem => ?_) rfl
      dsimp only [clearTurnedAway] at mem
      split at mem
      · exact shared.sharedL1 l mem
      · exact shared.sharedL1 l mem
      · exact absurd mem (Finset.notMem_empty l)
    · split
      · refine (ends_top _).bind fun top' ⟨below', hp'⟩ => ?_
        refine (returnPending_sent laid hc shared).bind fun back sent => ?_
        rcases lent with none | ⟨l1, below, rfl, hl1, demand⟩
        · cases hp'.symm.trans none
        · obtain ⟨rfl, -⟩ := List.cons.inj hp'
          have answer : r.Sent [toL1 cfg t l1
            (returnedAnswer e { lqe with path := l1 :: below })] := by
            refine answer_sent rfl hl1 demand ?_
            unfold returnedAnswer
            dsimp only
            split
            · simp
            · split <;> simp
          refine ⟨answer.cons sent, Sharing.done (fun l mem => ?_) rfl⟩
          rcases Finset.mem_insert.mp mem with rfl | mem
          · exact hl1
          · exact shared.sharedL1 l mem
      · trivial

theorem repEvict_steers {found : Option (L2Entry C)} (sharing : ∀ e ∈ found, Sharing r c e)
    (reply : ∃ l1 below, lqe.path = l1 :: below ∧ r.IsL1Of c l1) :
    Ends (Steers r c) (repEvict cfg t found lqe st) := by
  obtain ⟨self, -⟩ := laid.cachel2 c cfg ways hc
  obtain ⟨l1, below, path, hl1⟩ := reply
  have top : Ends (fun top => top = l1) lqe.top :=
    (ends_top lqe).mono (fun top ⟨below', hp⟩ => (List.cons.inj (hp.symm.trans path)).1)
    fun _ h => h
  unfold repEvict
  cases found with
  | none =>
    dsimp only
    split
    · rename_i evict
      refine (addEventToLLTop_sent laid hc true ?_ (.inr ⟨?_, by rw [← self]; rfl⟩)).bind
        fun call sent => ⟨sent, trivial⟩
      · rw [show (lqe.push cfg.self).type = .evict from evict.1]
        rfl
      · rw [show (lqe.push cfg.self).type = .evict from evict.1]
        rfl
    · exact ⟨.nil, trivial⟩
  | some e =>
    have shared := sharing e rfl
    dsimp only
    split
    · split
      · trivial
      · rename_i pending hp
        obtain ⟨asks, head⟩ := shared.pending pending hp
        refine (addEventToLLTop_sent laid hc true (forLine_of_asksL2 asks) (.inl head)).bind
          fun call sent => ?_
        refine top.bind fun top htop => ⟨sent, Sharing.done (fun l mem => ?_) rfl⟩
        rcases Finset.mem_insert.mp mem with rfl | mem
        · exact htop ▸ hl1
        · exact shared.sharedL1 l mem
    · exact top.bind fun top _ =>
        ⟨.nil, fun l mem => shared.sharedL1 l (Finset.mem_of_mem_erase mem),
        shared.pending⟩

theorem repDirRd_steers {found : Option (L2Entry C)} (sharing : ∀ e ∈ found, Sharing r c e)
    (type : lqe.type = .dirRd) (head : lqe.path.head? = some (r.home lqe.address)) :
    Ends (Steers r c) (repDirRd cfg t set found lqe st) := by
  have asks : asksL2 lqe.type := by rw [type]; rfl
  have back : ∀ e' : L2Entry C, Sharing r c e' → Ends (Steers r c)
      (addEventToLLTop cfg t lqe true >>= fun call => (return {
        way := .set e', calls := [call]
        stats := { st with numCoherencyAccess := st.numCoherencyAccess + 1 } } :
          Except Abort (Outcome C))) := fun e' shared =>
    (addEventToLLTop_sent laid hc true (forLine_of_asksL2 asks) (.inl head)).bind fun call sent =>
      ⟨sent, shared⟩
  unfold repDirRd
  cases found with
  | none => exact ⟨addEventToLL_sent laid hc false rfl (.inr head), trivial⟩
  | some e =>
    have shared := sharing e rfl
    dsimp only
    split
    · trivial
    · split
      · exact back _ (shared.congr rfl rfl)
      · exact back _ (shared.congr rfl rfl)
      · exact back _ (shared.congr rfl rfl)
      · split
        · trivial
        · split
          · trivial
          · rename_i owner howner
            refine ⟨toL1_sent (shared.sharedL1 owner (first_mem howner)) trivial, ?_⟩
            exact Sharing.hold (fun l mem => absurd mem (Finset.notMem_empty l)) rfl asks head
      · split
        · trivial
        · exact ⟨.nil, Sharing.hold shared.sharedL1 rfl asks head⟩
      · split
        · trivial
        · exact ⟨.nil, Sharing.hold shared.sharedL1 rfl asks head⟩
      · trivial

omit laid hc [LinearOrder C] in
theorem repNack_steers (type : lqe.type = .nack)
    (reply : ∃ below, lqe.path = c :: below ∧ r.Asked c lqe.serial below) :
    Ends (Steers r c) (repNack cfg t lqe st) := by
  obtain ⟨stack, path, asked⟩ := reply
  refine (ends_pop lqe).bind ?_
  rintro _ ⟨c', stack', hp, rfl⟩
  obtain ⟨-, rfl⟩ := List.cons.inj (hp.symm.trans path)
  split
  · rename_i long
    obtain ⟨l1, below, rfl, hl1, demand⟩ := asked.demand (.inr long)
    refine (ends_top _).bind fun top ⟨below', hp'⟩ => ⟨?_, trivial⟩
    obtain ⟨rfl, -⟩ := List.cons.inj hp'
    exact answer_sent rfl hl1 demand (by simp [type])
  · exact ⟨.nil, trivial⟩

theorem repToS_steers {found : Option (L2Entry C)} (sharing : ∀ e ∈ found, Sharing r c e)
    (asks : asksL2 lqe.type) (head : lqe.path.head? = some (r.home lqe.address)) :
    Ends (Steers r c) (repToS cfg t found lqe st) := by
  unfold repToS
  cases found with
  | none =>
    refine ⟨addEventToLL_sent laid hc false ?_ (.inr head), trivial⟩
    dsimp only
    split <;> rfl
  | some e =>
    dsimp only
    split
    · trivial
    · exact (addEventToLLTop_sent laid hc true (forLine_of_asksL2 asks) (.inl head)).bind
        fun call sent => ⟨sent, (sharing e rfl).congr rfl rfl⟩

theorem repInvalidate_steers {found : Option (L2Entry C)} (sharing : ∀ e ∈ found, Sharing r c e)
    (asks : asksL2 lqe.type) (head : lqe.path.head? = some (r.home lqe.address)) :
    Ends (Steers r c) (repInvalidate cfg t set found lqe st) := by
  unfold repInvalidate
  cases found with
  | none =>
    have gone : Ends (fun call => r.Sent [call])
        (addEventToLLTop cfg t { lqe with type := .invalidateNd } false) :=
      addEventToLLTop_sent laid hc false rfl (.inl head)
    exact gone.bind fun call sent => ⟨sent, trivial⟩
  | some e =>
    have shared := sharing e rfl
    dsimp only
    split
    · trivial
    · split
      · split
        · trivial
        · split
          · trivial
          · rename_i owner howner
            refine ⟨toL1_sent (shared.sharedL1 owner (first_mem howner)) ⟨cfg.self, [], rfl,
              .inl rfl⟩, ?_⟩
            exact Sharing.hold (fun l mem => absurd mem (Finset.notMem_empty l)) rfl asks head
      · split
        · split
          · trivial
          · exact ⟨.nil, Sharing.hold shared.sharedL1 rfl asks head⟩
        · refine (reqL1Evict_sent shared.sharedL1 _ _).bind fun evicts sent => ?_
          refine (addEventToLLTop_sent laid hc _ (forLine_of_asksL2 asks) (.inl head)).bind
            fun back sent' => ?_
          exact ⟨sent.append sent', fun l mem => absurd mem (Finset.notMem_empty l), shared.pending⟩

theorem reply_steers {found : Option (L2Entry C)} {victim : L2Entry C}
    (sharing : ∀ e ∈ found, Sharing r c e) (hv : Sharing r c victim) (reply : r.L2Reply c lqe) :
    Ends (Steers r c) (CacheL2.reply cfg t set found victim lqe st) := by
  unfold L2Reply at reply
  unfold CacheL2.reply
  split
  · rename_i type
    rw [type] at reply
    exact repWriteNd_steers laid hc sharing reply
  · rename_i type
    rw [type] at reply
    exact repFill_steers laid hc sharing hv reply
  · rename_i type
    rw [type] at reply
    exact repFill_steers laid hc sharing hv reply
  · rename_i type
    rw [type] at reply
    exact repFill_steers laid hc sharing hv reply
  · rename_i type
    rw [type] at reply
    exact repMToX_steers laid hc sharing reply
  · rename_i type
    rw [type] at reply
    exact repMToX_steers laid hc sharing reply
  · rename_i type
    rw [type] at reply
    exact repEvict_steers laid hc sharing reply
  · rename_i type
    rw [type] at reply
    exact repEvict_steers laid hc sharing reply
  · rename_i type
    rw [type] at reply
    exact repDirRd_steers laid hc sharing type reply
  · rename_i type
    rw [type] at reply
    exact repNack_steers type reply
  · rename_i type
    rw [type] at reply
    exact repToS_steers laid hc sharing (by rw [type]; rfl) reply
  · rename_i type
    rw [type] at reply
    exact repToS_steers laid hc sharing (by rw [type]; rfl) reply
  · rename_i type
    rw [type] at reply
    exact repInvalidate_steers laid hc sharing (by rw [type]; rfl) reply
  · rename_i type
    rw [type] at reply
    exact repInvalidate_steers laid hc sharing (by rw [type]; rfl) reply
  · exact ⟨.nil, trivial⟩
  · trivial

/-- What a request is decided to be. If it is not sent on by the decision, it is at hand as it came,
or refused. -/
structure Chooses (r : Routes C) (l2 : C) (lqe : Lqe C) (o : ReqOutcome C) : Prop where
  sent : r.Sent o.calls
  lqe : o.lqe = lqe ∨ o.hit = true ∧ o.lqe = { lqe with type := .nack }
  way : o.way.Forall (Sharing r l2)

omit laid hc [LinearOrder C] in
theorem Chooses.hit {way : WayUpdate C} (h : way.Forall (Sharing r c)) :
    Chooses r c lqe { way, lqe, hit := true } := ⟨.nil, .inl rfl, h⟩

omit laid hc [LinearOrder C] in
theorem ends_top_asked (asked : r.Asked c lqe.serial lqe.path) : Ends (r.IsL1Of c) lqe.top := by
  obtain ⟨l1, below, path, hl1, -⟩ := asked
  refine (ends_top lqe).mono (fun top ⟨below', hp⟩ => ?_) fun _ h => h
  rw [(List.cons.inj (hp.symm.trans path)).1]
  exact hl1

omit laid hc [LinearOrder C] in
theorem forward_sent {owner l1 : C} {below : List C} {type : EventType} (howner : r.IsL1Of c owner)
    (path : lqe.path = l1 :: below) (hl1 : r.IsL1Of c l1) (demand : r.Demand lqe.serial below)
    (h : type = .mToS ∨ type = .mToM) : r.Sent [forward cfg t type owner lqe] := by
  refine toL1_sent howner ?_
  have lent : ∃ c' below, ({ lqe.push cfg.self with type } : Lqe C).path = c' :: below ∧
      r.Lent c lqe.serial below := ⟨cfg.self, lqe.path, rfl, .inr ⟨l1, below, path, hl1, demand⟩⟩
  unfold L1Reply
  rcases h with rfl | rfl <;> exact lent

omit laid hc in
theorem readFound_chooses (asked : r.Asked c lqe.serial lqe.path) (long : 1 < lqe.path.length)
    (h : Sharing r c e) : Ends (Chooses r c lqe) (readFound cfg t e lqe) := by
  have top := ends_top_asked asked
  obtain ⟨l1, below, path, hl1, demand⟩ := asked.demand (.inr long)
  unfold readFound
  dsimp only
  split
  · exact top.bind fun top htop => .hit (h.joined htop (Finset.Subset.refl _) rfl)
  · split
    · exact top.bind fun top htop => .hit (h.joined htop (Finset.Subset.refl _) rfl)
    · split
      · exact top.bind fun top htop => .hit (h.joined htop (Finset.Subset.refl _) rfl)
      · split
        · split
          · trivial
          · split
            · rename_i owner howner
              refine top.bind fun top htop => ?_
              split
              · refine ⟨forward_sent (h.sharedL1 owner (first_mem howner)) path hl1
                  demand (.inl rfl), .inl rfl, ?_⟩
                exact ⟨fun l mem => absurd mem (Finset.notMem_empty l), h.pending⟩
              · exact .hit (h.congr rfl rfl)
            · exact top.bind fun top htop => .hit (h.joined htop (Finset.Subset.refl _) rfl)
        · split
          · exact ⟨.nil, .inr ⟨rfl, rfl⟩, h.congr rfl rfl⟩
          · trivial

omit laid hc in
theorem readRequest_chooses {found : Option (L2Entry C)} (asked : r.Asked c lqe.serial lqe.path)
    (sharing : ∀ e ∈ found, Sharing r c e) :
      Ends (Chooses r c lqe) (readRequest cfg t found lqe) := by
  unfold readRequest
  cases found with
  | none => exact ⟨.nil, .inl rfl, trivial⟩
  | some e =>
    dsimp only
    split
    · exact .hit trivial
    · rename_i more
      refine readFound_chooses asked ?_ (sharing e rfl)
      obtain ⟨l1, below, path, -⟩ := asked
      rw [path] at more ⊢
      simp only [List.length_cons] at more ⊢
      omega

omit laid hc in
theorem own_chooses (asked : r.Asked c lqe.serial lqe.path) (sent : r.Sent calls)
    (h : Sharing r c e) :
    Ends (Chooses r c lqe) (own t e lqe calls) :=
  (ends_top_asked asked).bind fun _ htop =>
    ⟨sent, .inl rfl, h.joined htop (Finset.Subset.refl _) rfl⟩

omit laid hc [LinearOrder C] in
theorem Sharing.emptied {e' : L2Entry C} (h : Sharing r c e) (shared : e'.sharedL1 = ∅)
    (pending : e'.pending = e.pending) : Sharing r c e' :=
  ⟨fun l mem => absurd (shared ▸ mem) (Finset.notMem_empty l), pending ▸ h.pending⟩

omit laid hc in
theorem writeFound_chooses (asked : r.Asked c lqe.serial lqe.path) (serial : lqe.serial ≠ none)
    (h : Sharing r c e) : Ends (Chooses r c lqe) (writeFound cfg t set e lqe) := by
  have top := ends_top_asked asked
  obtain ⟨l1, below, path, hl1, demand⟩ := asked.demand (.inl serial)
  unfold writeFound
  dsimp only
  split
  · exact own_chooses asked .nil h
  · split
    · split
      · trivial
      · split
        · trivial
        · rename_i owner howner
          refine top.bind fun top htop => ?_
          split
          · exact ⟨forward_sent (h.sharedL1 owner (first_mem howner)) path hl1 demand (.inr rfl),
              .inl rfl, h.emptied rfl rfl⟩
          · exact own_chooses asked .nil h
    · split
      · split
        · trivial
        · split
          · exact own_chooses asked .nil h
          · rename_i other hother
            refine top.bind fun top htop => ?_
            split
            · exact own_chooses asked (toL1_sent (h.sharedL1 other (first_mem hother)) trivial)
                (h.emptied rfl rfl)
            · exact own_chooses asked .nil h
      · split
        · exact (reqL1Evict_sent h.sharedL1 _ _).bind fun evicts sent =>
            own_chooses asked sent (h.emptied rfl rfl)
        · split
          · exact ⟨.nil, .inr ⟨rfl, rfl⟩, h.congr rfl rfl⟩
          · trivial

omit laid hc in
theorem writeUpgrade_chooses (h : Sharing r c e) :
    Ends (Chooses r c lqe) (writeUpgrade cfg t set e lqe) := by
  have sole : Ends (fun _ => True) (soleRequester e lqe) := by
    cases soleRequester e lqe <;> trivial
  refine sole.bind fun sole _ => ?_
  split
  · exact ⟨.nil, .inl rfl, h.congr rfl rfl⟩
  · refine (reqL1Evict_sent h.sharedL1 _ _).bind fun evicts sent => ⟨sent, .inl rfl, ?_⟩
    show Sharing r c (if e.sharedL1 = ∅ then e
      else { e with type := .invalid, lastAccessTime := t, sharedL1 := ∅ })
    split
    · exact h
    · exact h.emptied rfl rfl

omit laid hc in
theorem writeRequest_chooses {found : Option (L2Entry C)} (asked : r.Asked c lqe.serial lqe.path)
    (serial : lqe.serial ≠ none) (sharing : ∀ e ∈ found, Sharing r c e) :
    Ends (Chooses r c lqe) (writeRequest cfg t set found lqe) := by
  unfold writeRequest
  cases found with
  | none => exact ⟨.nil, .inl rfl, trivial⟩
  | some e =>
    dsimp only
    split
    · exact writeUpgrade_chooses (sharing e rfl)
    · exact writeFound_chooses asked serial (sharing e rfl)

omit [LinearOrder C] in
theorem miss_sent (request : r.L2Request c lqe) : r.Sent [miss cfg t lqe] := by
  obtain ⟨rfl, isDir, crossbar, same⟩ := laid.cachel2 c cfg ways hc
  have demand : r.DirDemand (r.home lqe.address) (lqe.push cfg.self) :=
    ⟨rfl, request.1, cfg.self, lqe.path, rfl, ⟨cfg, ways, hc⟩, request.2⟩
  unfold miss
  dsimp only
  split
  · rename_i near
    refine Sent.one (fits_demand isDir rfl ?_)
    show r.DirDemand cfg.directory (lqe.push cfg.self)
    rw [same _ near]
    exact demand
  · refine Sent.one (fits_crossbar crossbar fun xbar hx d hd => ?_)
    have home : d = r.home lqe.address := by
      rw [← Option.some.inj hd]
      exact laid.crossbar _ xbar hx lqe.address
    rw [home]
    exact arrives_demand (laid.home _) demand

omit [LinearOrder C] in
theorem dispose_steers {o : ReqOutcome C} (etype : EventType) (request : r.L2Request c lqe)
    (h : Chooses r c lqe o) : Ends (Steers r c) (dispose cfg t etype o st) := by
  unfold dispose
  split
  · exact ⟨h.sent, h.way⟩
  · split
    · rename_i missed
      have same : o.lqe = lqe := h.lqe.resolve_right fun refused => by
        rw [refused.1] at missed
        cases missed
      refine ⟨h.sent.append ?_, h.way⟩
      rw [same]
      exact miss_sent laid hc request
    · split
      · rename_i long
        have path : o.lqe.path = lqe.path := by
          rcases h.lqe with same | ⟨-, same⟩ <;> rw [same]
        have serial : o.lqe.serial = lqe.serial := by
          rcases h.lqe with same | ⟨-, same⟩ <;> rw [same]
        rw [path] at long
        obtain ⟨l1, below, hp, hl1, demand⟩ := request.2.demand (.inr long)
        refine (ends_top o.lqe).bind fun top ⟨below', hp'⟩ => ⟨h.sent.append ?_, h.way⟩
        obtain ⟨rfl, -⟩ := List.cons.inj (hp'.symm.trans (path.trans hp))
        refine answer_sent (path.trans hp) hl1 (serial ▸ demand) ?_
        rcases h.lqe with same | ⟨-, same⟩
        · rw [same]
          rcases request.1 with type | ⟨type, -⟩ <;> simp [type]
        · simp [same]
      · exact ⟨h.sent, h.way⟩

theorem request_steers {found : Option (L2Entry C)} (sharing : ∀ e ∈ found, Sharing r c e)
    (req : r.L2Request c lqe) : Ends (Steers r c) (request cfg t set found lqe st) := by
  unfold request
  split
  · exact (readRequest_chooses req.2 sharing).bind fun o h => dispose_steers laid hc _ req h
  · rename_i other
    have serial : lqe.serial ≠ none := (req.1.resolve_left other).2
    exact (writeRequest_chooses req.2 serial sharing).bind fun o h => dispose_steers laid hc _ req h

variable {s : CacheL2 C}

omit laid hc [LinearOrder C] in
theorem orderly_congr {s' : CacheL2 C} (h : s'.waiting = s.waiting)
    (sharing : ∀ set, ∀ e ∈ s'.tags set, Sharing r c e) (orderly : Orderly r c s) :
      Orderly r c s' := by
  simp only [waiting, Prod.mk.injEq] at h
  obtain ⟨req, rep, repQ, reqQs⟩ := h
  refine ⟨?_, sharing⟩
  rw [req, rep, repQ, reqQs]
  exact orderly.messages

theorem processReply_sent (sharing : ∀ set, ∀ e ∈ s.tags set, Sharing r c e) (h : r.L2Reply c lqe) :
    Ends (fun p => p.1.waiting = s.waiting ∧ (∀ set, ∀ e ∈ p.1.tags set, Sharing r c e) ∧
      r.Sent p.2.calls) (processReply cfg t s lqe) := by
  unfold processReply
  dsimp only
  split
  · trivial
  · rename_i victim hv
    have victimOk := sharing _ victim (List.mem_of_mem_head? hv)
    exact (reply_steers laid hc (found_forall sharing) victimOk h).bind fun o ho =>
      ⟨rfl, apply_forall sharing _ _ ho.way, ho.sent⟩

theorem processRequests_sent (requests : List (Lqe C))
    (sharing : ∀ set, ∀ e ∈ s.tags set, Sharing r c e) (all : ∀ lqe ∈ requests, r.L2Request c lqe) :
    Ends (fun p => p.1.waiting = s.waiting ∧ (∀ set, ∀ e ∈ p.1.tags set, Sharing r c e) ∧
      r.Sent p.2.calls) (processRequests cfg t s requests) := by
  induction requests generalizing s with
  | nil => exact ⟨rfl, sharing, .nil⟩
  | cons lqe rest ih =>
    have one : Ends (fun p => p.1.waiting = s.waiting ∧ (∀ set, ∀ e ∈ p.1.tags set, Sharing r c e) ∧
        r.Sent p.2.calls) (processRequest cfg t s lqe) :=
      (request_steers laid hc (found_forall sharing) (all lqe List.mem_cons_self)).bind fun o ho =>
        ⟨rfl, apply_forall sharing _ _ ho.way, ho.sent⟩
    unfold processRequests
    refine one.bind fun p h => ?_
    refine (ih h.2.1 fun other mem => all other (List.mem_cons_of_mem lqe mem)).bind fun p' h' => ?_
    exact ⟨h'.1.trans h.1, h'.2.1, h.2.2.append h'.2.2⟩

theorem processEvent_sent (h : Orderly r c s) :
    Ends (fun p => Orderly r c p.1 ∧ r.Sent p.2.1.calls) (processEvent cfg t s) := by
  have taken : Orderly r c (s.takeEvents cfg t) := ⟨h.messages.take t _, h.ways⟩
  unfold processEvent
  suffices served : Ends (fun p => Orderly r c p.1 ∧ r.Sent p.2.calls)
    (serve cfg t (s.takeEvents cfg t)) from
    served.bind fun p hp => hp
  unfold serve
  split
  · rename_i lqe repQ hq
    have messages := taken.messages
    rw [hq] at messages
    obtain ⟨reply, rest⟩ := messages.uncons
    have orderly : Orderly r c { s.takeEvents cfg t with repQ } := ⟨rest, taken.ways⟩
    exact Meets.mono (processReply_sent (s := { s.takeEvents cfg t with repQ }) laid hc
      taken.ways reply)
      (fun p sent => ⟨orderly_congr sent.1 sent.2.1 orderly, sent.2.2⟩) fun _ h => h
  · split
    · trivial
    · obtain ⟨requests, rest⟩ := taken.messages.heads cfg.numBanks
      have orderly : Orderly r c { s.takeEvents cfg t with
          reqQs := fun bank => ((s.takeEvents cfg t).reqQs bank).tail } := ⟨rest, taken.ways⟩
      exact Meets.mono (processRequests_sent (s := { s.takeEvents cfg t with
          reqQs := fun bank => ((s.takeEvents cfg t).reqQs bank).tail }) laid hc _
            taken.ways requests)
        (fun p sent => ⟨orderly_congr sent.1 sent.2.1 orderly, sent.2.2⟩) fun _ h => h

end Handlers
end McSim.CacheL2
