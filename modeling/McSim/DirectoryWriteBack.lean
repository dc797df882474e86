import McSim.DirectoryTaken

/-! Write-backs of modified lines at the directory.
Each is written to the memory once, as long as none of them meets an entry in `cs_tr_to_m`, no L2
denies a copy that it has modified or that the directory has put back, and no eviction of an earlier
grant meets the entry of a later one. -/

namespace McSim

namespace Net

open Directory Contract

variable {C : Type} [LinearOrder C] {cfg : DirConfig C} {s s₀ : Net C} {dir : Directory C}
    {line t time : Nat}
  {found : Option (DirEntry C)} {st : DirStats} {o : Outcome C} {own : List (Lqe C)}
  {lqe : Lqe C} {c : C}
  {rest : List (Lqe C)} {effects : Effects C}

/-- The `et_evict` of modified data with place `k` among all of them. -/
def isWriteBack (k : Nat) (lqe : Lqe C) : Bool := lqe.type = .evict ∧ lqe.serial = some k

def timesWritten (s : Net C) (k : Nat) : Nat := s.written.countP fun lqe => lqe.serial = some k

def waits (s : Net C) (k : Nat) : Nat := s.dir.repEvent.countP fun x => isWriteBack k x.2

def dealt (s : Net C) (k : Nat) : Nat := waits s k + timesWritten s k

def writeBackOf (cfg : DirConfig C) (lqe : Lqe C) : List (Lqe C) :=
  if lqe.type = .evict ∧ lqe.serial.isSome = true then [lqe.push cfg.self] else []

omit [LinearOrder C] in
theorem countP_writeBackOf (lqe : Lqe C) (k : Nat) :
    ((writeBackOf cfg lqe).countP fun lqe => lqe.serial = some k) = if isWriteBack k lqe then 1
      else 0 := by
  unfold writeBackOf isWriteBack
  by_cases ht : lqe.type = .evict
  · cases hs : lqe.serial <;> simp [ht, hs, Lqe.push, List.countP_cons]
  · simp [ht]

omit [LinearOrder C] in
theorem writeBackOf_of_ne (ht : lqe.type ≠ .evict) :
    writeBackOf cfg lqe = [] := by simp [writeBackOf, ht]

/-- What the `et_evict` of `c` finds where it is processed. Modified data does not come to an entry
in `cs_tr_to_m`, and what is owed for an earlier grant does not come to one that has `c` as the
owner of the line or waits for its first copy. -/
structure Fits (c : C) (lqe : Lqe C) (e : DirEntry C) : Prop where
  waiting : e.type = .trToE → c ∉ e.sharedL2
  carried : lqe.serial.isSome = true → e.type ≠ .trToM
  earlier : lqe.serial = none → e.type = .modified ∨ e.type = .mToS → c ∉ e.sharedL2

/-- The steps a run may have. An `et_evict` that is processed fits its entry. An L2 answers for a
line that it has modified while it holds it, and its answer is not taken while the directory has put
its write-back of the line back. Information for a request that is held finds the request. -/
def WriteBackOk (cfg : DirConfig C) (s : Net C) : Act C → Prop
  | .takes c lqe =>
      (lqe.type = .evict → ¬ Deferred cfg s.dir lqe →
        ∀ e, s.dir.dir (cfg.lineOf lqe.address) = some e → Fits c lqe e) ∧
      ((demandOf lqe.type).isSome = true → ∀ m ∈ s.putBack c,
        cfg.lineOf m.address = cfg.lineOf lqe.address → m.serial = none)
  | .again lqe => lqe.type = .evict → ¬ Deferred cfg s.dir lqe → ∀ c, lqe.path.head? = some c →
      ∀ e, s.dir.dir (cfg.lineOf lqe.address) = some e → Fits c lqe e
  | .informs lqe => ∃ e, s.dir.dir (cfg.lineOf lqe.address) = some e ∧ transient e.type = false
  | .answers c lqe =>
      s.modified c (cfg.lineOf lqe.address) = true → s.holds c (cfg.lineOf lqe.address) = true

theorem WriteBackOk.evictOk {a : Act C} (h : WriteBackOk cfg s a) (goes : Goes cfg s a) :
    EvictOk cfg s a := by
  cases a with
  | takes c lqe => exact fun e he ht => (h.1 ht goes e he).waiting
  | again lqe => exact fun c hc e he ht => (h ht goes c hc e he).waiting
  | informs lqe => exact h
  | answers c lqe => trivial

omit [LinearOrder C] in
theorem Fits.congr (h : ∀ e, s.dir.dir line = some e → Fits c lqe e)
    (same : found.map core = (s.dir.dir line).map core) (e : DirEntry C)
    (he : (s.recast line found).dir.dir line = some e) : Fits c lqe e := by
  rw [recast_self] at he
  obtain ⟨e', he', ht, hs, -⟩ := core_eq_some same he
  have fits := h e' he'
  exact ⟨ht ▸ hs ▸ fits.waiting, ht ▸ fits.carried, ht ▸ hs ▸ fits.earlier⟩

theorem writeBack_entry (h : Tracked cfg s line) (hcopy : Mark.copy ∈ trail cfg s line c)
    (hserial : lqe.serial.isSome = true) (fits : ∀ e, s.dir.dir line = some e → Fits c lqe e) :
    ∃ e, s.dir.dir line = some e ∧ e.sharedL2 = {c} ∧ (e.type = .modified ∨ e.type = .mToS) := by
  obtain ⟨-, e, he, hs, hlent⟩ := h.owner c hcopy
  refine ⟨e, he, hs, ?_⟩
  rcases hlent with hM | hS | hTM
  · exact .inl hM
  · exact .inr hS
  · exact absurd hTM ((fits e he).carried hserial)

theorem Taken.copy (k : Taken cfg s s₀ c lqe) (ht : lqe.type = .evict)
    (hserial : lqe.serial.isSome = true) :
    Mark.copy ∈ trail cfg s (cfg.lineOf lqe.address) c := by
  have mark : upMark cfg (cfg.lineOf lqe.address) lqe = some .copy :=
    upMark_eq_copy.mpr ⟨rfl, ht, hserial⟩
  rw [k.marks, if_pos rfl, mark]
  exact List.mem_append_left _ (List.mem_singleton.mpr rfl)

theorem evict_carries (k : Taken cfg s s₀ c lqe) (h : Tracked cfg s (cfg.lineOf lqe.address))
    (ht : lqe.type = .evict) (hpath : lqe.path.head? = some c)
    (fits : ∀ e, s.dir.dir (cfg.lineOf lqe.address) = some e → Fits c lqe e) :
    Meets (fun _ => True)
      (Carries cfg (fun a => Mark.copy ∈ trail cfg s₀ (cfg.lineOf lqe.address) a)
        (writeBackOf cfg lqe))
      (reply cfg t (s.dir.dir (cfg.lineOf lqe.address)) lqe st) := by
  obtain ⟨path, hpath⟩ := List.head?_eq_some_iff.mp hpath
  have copied := fun hserial => writeBack_entry h (k.copy ht hserial) hserial fits
  have own : ∀ a, Mark.copy ∈ trail cfg s₀ (cfg.lineOf lqe.address) a →
      ∃ e, s.dir.dir (cfg.lineOf lqe.address) = some e ∧ e.sharedL2 = {a} ∧ Lent e.type :=
    fun a ha => k.dir ▸ ((k.tracked h).owner a ha).2
  have passed : writeBackOf cfg lqe = if lqe.serial.isSome then [lqe.push cfg.self] else [] := by
    simp [writeBackOf, ht]
  simp only [reply, ht]
  cases he : s.dir.dir (cfg.lineOf lqe.address) with
  | none =>
    have free : ¬ lqe.serial.isSome = true := fun hs => by
      obtain ⟨e, he', -⟩ := copied hs
      cases he.symm.trans he'
    rw [passed, if_neg free]
    refine Carries.still rfl fun a ha => ?_
    obtain ⟨e, he', -⟩ := own a ha
    cases he.symm.trans he'
  | some e =>
    rw [passed]
    refine repEvict_carries hpath ht (fun a ha => ?_) (fun hMS hc => ?_) fun hs => ?_
    · obtain ⟨e', he', h⟩ := own a ha
      cases he.symm.trans he'
      exact h
    · cases hs : lqe.serial with
      | none => exact absurd hc ((fits e he).earlier hs hMS)
      | some n =>
        have mark : upMark cfg (cfg.lineOf lqe.address) lqe = some .copy :=
          upMark_eq_copy.mpr ⟨rfl, ht, by simp [hs]⟩
        refine k.none_left h (k.given_up h (by simp [mark])) fun a e' he' hs' _ => ?_
        cases he.symm.trans he'
        exact (Finset.mem_singleton.mp (hs' ▸ hc)).symm
    · obtain ⟨e', he', hs', ht'⟩ := copied hs
      cases he.symm.trans he'
      exact ⟨ht', by simp [hs']⟩

theorem settles_of_zero (hr : reads cfg s line = 0) (hl : ∀ a, load cfg s line .upgrade a = 0) :
    Settles cfg s line o := by
  rintro e' - (h | ⟨a, h⟩)
  · omega
  · have zero := hl a
    omega

theorem waiting_entry (hi : Inv cfg s)
    (h : 1 ≤ reads cfg s line ∨ ∃ a, 1 ≤ load cfg s line .upgrade a) :
    ∃ e, s.dir.dir line = some e ∧ (e.type = .trToM ∨ e.type = .trToE) := by
  rcases h with hr | ⟨a, ha⟩
  · obtain ⟨e, he, ht, -⟩ := (hi.lines line).phase.of_reads hr
    exact ⟨e, he, ht.symm⟩
  · obtain ⟨e, he, ht, -⟩ := (hi.lines line).phase.of_upgrade ha
    exact ⟨e, he, .inl ht⟩

omit [LinearOrder C] in
theorem settles_marked (same : found.map core = (s.dir.dir line).map core)
    (h : Settles cfg (s.recast line found) line o) : Settles cfg s line o := by
  intro e' he' hwait
  obtain ⟨e, he, hs⟩ := h e' he' hwait
  rw [recast_self] at he
  obtain ⟨e₀, he₀, -, hs₀, -⟩ := core_eq_some same he
  exact ⟨e₀, he₀, hs.trans hs₀⟩

theorem evict_settles (hi : Inv cfg s) (ht : lqe.type = .evict) (hpath : lqe.path.head? = some c)
    (hok : ∀ e, s.dir.dir (cfg.lineOf lqe.address) = some e → e.type = .trToE → c ∉ e.sharedL2) :
    Meets (fun _ => True) (Settles cfg s (cfg.lineOf lqe.address))
      (reply cfg t (s.dir.dir (cfg.lineOf lqe.address)) lqe st) := by
  obtain ⟨path, hpath⟩ := List.head?_eq_some_iff.mp hpath
  simp only [reply, ht]
  cases he : s.dir.dir (cfg.lineOf lqe.address) with
  | none =>
    rintro e' ⟨⟩
  | some e =>
    by_cases hwait : 1 ≤ reads cfg s (cfg.lineOf lqe.address) ∨
        ∃ a, 1 ≤ load cfg s (cfg.lineOf lqe.address) .upgrade a
    · obtain ⟨e', he', waiting⟩ := waiting_entry hi hwait
      cases he.symm.trans he'
      rcases waiting with hM | hE
      · simp only [repEvict, hM, meets_pure]
        rintro e' ⟨⟩ -
        exact ⟨e, he, rfl⟩
      · have same : e.sharedL2.erase c = e.sharedL2 := Finset.erase_eq_of_notMem (hok e he hE)
        simp only [repEvict, hE, Lqe.top_ok hpath, meets_bind, meets_ok]
        split
        · rintro e' ⟨⟩
        · rintro e' ⟨⟩ -
          exact ⟨e, he, same⟩
    · show Meets (fun _ => True) _ (repEvict cfg t e lqe st)
      cases repEvict cfg t e lqe st with
      | error _ => trivial
      | ok o => exact fun e' _ h => absurd h hwait

theorem answer_carries {d : Demand} (hi : Inv cfg s) (h : Tracked cfg s (cfg.lineOf lqe.address))
    (k : Taken cfg s (s.takeReply c rest) c lqe) (hrep : s.repUp c = lqe :: rest)
    (hd : demandOf lqe.type = some d) (hw : lqe.type ≠ .writeNd) :
    Meets (fun _ => True) (fun o =>
      Carries cfg (fun a => Mark.copy ∈ trail cfg (s.takeReply c rest) (cfg.lineOf lqe.address) a)
        [] o ∧
        Settles cfg (s.takeReply c rest) (cfg.lineOf lqe.address) o)
      (reply cfg t (s.dir.dir (cfg.lineOf lqe.address)) lqe st) := by
  have hmem : lqe ∈ s.repUp c := hrep ▸ List.mem_cons_self
  have howed : lqe ∈ s.owed c := by simp [owed, hmem]
  have hab : about cfg (cfg.lineOf lqe.address) d lqe = true := by simp [about, hd]
  have waits : 1 ≤ load cfg s (cfg.lineOf lqe.address) d c :=
    List.countP_pos_iff.mpr ⟨lqe, howed, hab⟩
  have hload : load cfg (s.takeReply c rest) (cfg.lineOf lqe.address) =
      less (load cfg s (cfg.lineOf lqe.address)) d c := load_takeReply_self hrep hd
  have phase := (hi.lines (cfg.lineOf lqe.address)).phase
  cases d with
  | data =>
    obtain ⟨e, p, he, ht, hp, hl, hr, hs⟩ := phase.of_data waits
    have settles : ∀ o, Settles cfg (s.takeReply c rest) (cfg.lineOf lqe.address) o := fun _ =>
      settles_of_zero hr fun a => by rw [hload, hl, less_single]; rfl
    have mark : upMark cfg (cfg.lineOf lqe.address) lqe = some .demand :=
      upMark_eq_demand.mpr ⟨rfl, by simp [hd], fun ht => by simp [ht, demandOf] at hd⟩
    have none := k.none_left h (k.given_up h (by simp [mark])) fun a e' he' hs' hlent => by
      cases he.symm.trans he'
      rcases ht with ht | ht
      · simp [Lent, ht] at hlent
      · have sub := hs ht
        rw [hs', Finset.singleton_subset_singleton] at sub
        exact sub
    rw [he]
    cases htype : lqe.type <;> simp only [htype, demandOf] at hd <;> simp only [reply, htype] <;>
      first
        | exact (repNd_carries none).mono (fun o ho => ⟨ho, settles o⟩) fun _ h => h
        | exact (repData_carries none).mono (fun o ho => ⟨ho, settles o⟩) fun _ h => h
        | cases hd
  | inval =>
    obtain ⟨e, p, he, ht, hc, hp, hl, hr⟩ := phase.of_inval waits
    have settles : ∀ o, Settles cfg (s.takeReply c rest) (cfg.lineOf lqe.address) o := fun _ =>
      settles_of_zero hr fun a => by rw [hload, hl, less_each]; simp [each]
    have mark : upMark cfg (cfg.lineOf lqe.address) lqe = some .demand :=
      upMark_eq_demand.mpr ⟨rfl, by simp [hd], fun ht => by simp [ht, demandOf] at hd⟩
    have none := k.none_left h (k.given_up h (by simp [mark])) fun a e' he' hs' _ => by
      cases he.symm.trans he'
      exact (Finset.mem_singleton.mp (hs' ▸ hc)).symm
    have pending : ∀ p, e.pending = some p → p.type = .read ∨ p.type = .write := fun p hp =>
      (((hi.lines _).named e he).pending p hp).2.1
    rw [he]
    cases htype : lqe.type <;> simp only [htype, demandOf] at hd <;> simp only [reply, htype] <;>
      first
        | exact (repInvalidate_carries none pending).mono (fun o ho => ⟨ho, settles o⟩) fun _ h => h
        | cases hd
  | upgrade =>
    obtain ⟨e, he, ht, hs, hl, hr⟩ := phase.of_upgrade waits
    have settles : ∀ o, Settles cfg (s.takeReply c rest) (cfg.lineOf lqe.address) o := fun _ =>
      settles_of_zero hr fun a => by rw [hload, hl, less_single]; rfl
    have sharer := h.upgrader c lqe howed hab e he
    have own : ∀ a, Mark.copy ∈ trail cfg (s.takeReply c rest) (cfg.lineOf lqe.address) a →
        e.sharedL2 = {a} := fun a ha => by
      obtain ⟨-, e', he', hs', -⟩ := (k.tracked h).owner a ha
      cases he.symm.trans he'
      exact hs'
    have gone : lqe.type = .eToI →
        ∀ a, Mark.copy ∉ trail cfg (s.takeReply c rest) (cfg.lineOf lqe.address) a := fun hI => by
      refine k.none_left h (fun hc => ?_) fun a e' he' hs' _ => ?_
      · refine h.declined c lqe hmem rfl hI ?_
        rw [k.marks]
        exact List.mem_append_right _ hc
      · cases he.symm.trans he'
        exact (Finset.singleton_injective (sharer.symm.trans hs')).symm
    rw [he]
    cases htype : lqe.type <;> simp only [htype, demandOf] at hd <;> simp only [reply, htype] <;>
      first
        | exact (repEToX_carries own gone).mono (fun o ho => ⟨ho, settles o⟩) fun _ h => h
        | exact absurd htype hw
        | cases hd

/-- What the directory leaves once it has dealt with a message that has been taken: every line
tracked, and the message written or put back if it is a write-back. -/
structure Handled (cfg : DirConfig C) (s s' : Net C) (lqe : Lqe C) : Prop where
  tracked : ∀ line, Tracked cfg s' line
  repUp : s'.repUp = s.repUp
  senders : s'.senders = s.senders
  dealt : ∀ k, dealt s' k = dealt s k + if isWriteBack k lqe then 1 else 0

theorem Ended.handled (h : Ended cfg s dir line o (writeBackOf cfg lqe)) {calls : List (Call C)}
    (aside : ∀ call ∈ calls, Aside cfg line call) :
    Handled cfg s (sendAll cfg { s with dir } (calls ++ o.calls)) lqe := by
  obtain ⟨infos, written, hs, -, silent⟩ := @sendAll_aside _ _ cfg { s with dir } line calls aside
  let s₁ : Net C := { s with infos := s.infos ++ infos, written := s.written ++ written }
  have same : sendAll cfg { s with dir } (calls ++ o.calls) = sendAll cfg { s₁ with dir }
    o.calls := by
    rw [sendAll_append, hs]
  have wf := h.wellFormed
  have tracked : ∀ line, Tracked cfg s₁ line := fun line =>
    (h.tracked line).moved rfl le_rfl (fun _ hm _ => hm) (fun _ => List.suffix_rfl)
    (fun _ _ hm _ => hm)
      fun _ _ hm _ => .inl hm
  have h₁ : Ended cfg s₁ dir line o (writeBackOf cfg lqe) :=
    ⟨⟨wf.1, wf.2, wf.3, wf.4, wf.5⟩, h.harmless, tracked, h.entry, h.repEvent, h.continues,
      h.carries, h.settles⟩
  obtain ⟨hdir, -, hrep, -, hsenders, -, -, hwritten⟩ :=
    @sendAll_sent _ _ cfg { s₁ with dir } o.calls
  rw [same]
  refine ⟨h₁.tracked_all, hrep, hsenders, fun k => ?_⟩
  have none : written.countP (fun lqe => decide (lqe.serial = some k)) = 0 :=
    List.countP_eq_zero.mpr fun m hm => by simp [silent m hm]
  have only : (o.calls.flatMap (writesOf cfg)).countP (fun lqe => decide (lqe.serial = some k)) =
      if isWriteBack k lqe then 1 else 0 := by
    rw [← @countP_writeBackOf _ cfg, ← h.carries.written, List.countP_filter]
    refine List.countP_congr fun lqe _ => ?_
    cases lqe.serial <;> simp
  have back : waits (sendAll cfg { s₁ with dir } o.calls) k = waits s k := by
    rw [waits, hdir, waits]
    exact congrArg _ h.repEvent
  have more : timesWritten (sendAll cfg { s₁ with dir } o.calls) k =
      timesWritten s k + if isWriteBack k lqe then 1 else 0 := by
    rw [timesWritten, hwritten, List.countP_append, only]
    show (s.written ++ written).countP _ + _ = _
    rw [List.countP_append, none]
    rfl
  rw [dealt, dealt, back, more, Nat.add_assoc]

theorem handled_back (tracked : ∀ line, Tracked cfg { s with dir } line)
    (hrep : dir.repEvent = Multimap.insert time lqe s.dir.repEvent) :
      Handled cfg s { s with dir } lqe := by
  refine ⟨tracked, rfl, rfl, fun k => ?_⟩
  have more : waits { s with dir } k = waits s k + if isWriteBack k lqe then 1 else 0 := by
    rw [waits]
    show dir.repEvent.countP _ = _
    rw [hrep, (Multimap.insert_perm ..).countP_eq, List.countP_cons]
    rfl
  have same : timesWritten { s with dir } k = timesWritten s k := rfl
  rw [dealt, dealt, more, same]
  omega

theorem harmless_back (hk : Harmless s)
    (hrep : dir.repEvent = Multimap.insert time lqe s.dir.repEvent)
    (harmless : demandOf lqe.type = none) : Harmless { s with dir } := by
  intro a m hm
  simp only [putBack, hrep, List.mem_filter, List.mem_map, Multimap.mem_insert] at hm
  obtain ⟨⟨x, hx | hx, rfl⟩, hpath⟩ := hm
  · rw [hx]
    exact harmless
  · exact hk a x.2 (List.mem_filter.mpr ⟨List.mem_map.mpr ⟨x, hx, rfl⟩, hpath⟩)

theorem evict_handled (k : Taken cfg s s₀ c lqe) (h : ∀ line, Tracked cfg s line) (hi : Inv cfg s₀)
    (hk : CacheKept cfg s₀) (ht : lqe.type = .evict) (hpath : lqe.path.head? = some c)
    (fits : ¬ Deferred cfg s₀.dir lqe → ∀ e, s₀.dir.dir (cfg.lineOf lqe.address) = some e →
      Fits c lqe e)
    (hp : s₀.dir.processReply cfg t lqe = .ok (dir, effects)) :
    Handled cfg s₀ (sendAll cfg { s₀ with dir } effects.calls) lqe := by
  have harmless : demandOf lqe.type = none := by rw [ht]; rfl
  cases (processReply_replied hk.inv).of_ok hp with
  | served found st calls goes same ho aside off hd hrep =>
    have fits := fits goes
    have evictOk : EvictOk cfg s₀ (.again lqe) := fun c' hc' e he _ => by
      cases hpath.symm.trans hc'
      exact (fits e he).waiting
    have same' : found.map core = (s.dir.dir (cfg.lineOf lqe.address)).map core := k.dir ▸ same
    have carries := (evict_carries (k.recast _ found) (tracked_recast h same' _) ht hpath
      (Fits.congr (k.dir ▸ fits) same')).of_ok (by rw [recast_self]; exact ho)
    have settles := (evict_settles (hi.marked same) ht hpath
      fun e he => (Fits.congr fits same e he).waiting).of_ok (by rw [recast_self]; exact ho)
    exact Ended.handled ⟨hi.wellFormed, hk.harmless, fun line => k.tracked (h line), hd, hrep,
      passed_continues hi same ho (.inl ⟨ht, c, hpath⟩) evictOk, carries,
      settles_marked same settles⟩
      fun call hcall => (aside call hcall).aside
  | putBack time wakeups deferred hd hrep =>
    exact handled_back (k.back h hpath (harmless_back hk.harmless hrep harmless) hd hrep) hrep
  | informed found on hinfo => cases ht.symm.trans hinfo

theorem info_quiet (hi : Inv cfg s)
    (same : found.map core = (s.dir.dir (cfg.lineOf lqe.address)).map core) (ht : lqe.type =
      .rdDirInfoRep) (hinfo : Informs cfg lqe) (ho : reply cfg t found lqe st = .ok o) :
    o.calls = [] ∧ o.entry = found := by
  obtain ⟨gone, passed⟩ := @reply_through _ _ cfg t lqe st (by rw [ht]; rfl)
  cases found with
  | none =>
    cases gone.symm.trans ho
    exact ⟨rfl, rfl⟩
  | some e =>
    have phase := (hi.lines (cfg.lineOf lqe.address)).phase.congr same
    have named := Named.congr (hi.lines (cfg.lineOf lqe.address)).named same e rfl
    have unlisted : cfg.self ∉ e.sharedL2 := fun hc => cfg.self_notMem (named.sharers _ hc)
    obtain ⟨st', hr⟩ := @repEvict_unlisted _ _ cfg t e lqe st _ _ _ _ phase hinfo.2.1 unlisted
    cases ((passed e).trans hr).symm.trans ho
    exact ⟨rfl, rfl⟩

theorem info_handled (hi : Inv cfg s) (hk : CacheKept cfg s) (h : ∀ line, Tracked cfg s line)
    (ht : lqe.type = .rdDirInfoRep) (hinfo : Informs cfg lqe)
    (hp : s.dir.processReply cfg t lqe = .ok (dir, effects)) :
    Handled cfg s (sendAll cfg { s with dir } effects.calls) lqe := by
  have notEvict : lqe.type ≠ .evict := by simp [ht]
  have harmless : demandOf lqe.type = none := by rw [ht]; rfl
  cases (processReply_replied hk.inv).of_ok hp with
  | served found st calls goes same ho aside off hd hrep =>
    have evictOk : EvictOk cfg s (.again lqe) := fun _ _ _ _ he => absurd he notEvict
    have continues := passed_continues hi same ho (.inr ⟨ht, hinfo⟩) evictOk
    obtain ⟨hcalls, hentry⟩ := info_quiet hi same ht hinfo ho
    refine Ended.handled ⟨hi.wellFormed, hk.harmless, h, hd, hrep, continues, ?_, ?_⟩
      fun call hcall => (aside call hcall).aside
    · rw [writeBackOf_of_ne notEvict]
      refine .still hcalls fun a ha => ?_
      obtain ⟨-, e, he, hs, hlent⟩ := (h _).owner a ha
      obtain ⟨e', he', ht', hs', -⟩ := core_eq_some same.symm he
      exact ⟨e', hentry.trans he', hs' ▸ hs, ht' ▸ hlent⟩
    · intro e' he' _
      obtain ⟨e, he, -, hs, -⟩ := core_eq_some same (hentry ▸ he')
      exact ⟨e, he, hs⟩
  | putBack time wakeups deferred hd hrep =>
    exact handled_back (tracked_back h (harmless_back hk.harmless hrep harmless) hd hrep notEvict
      harmless) hrep
  | informed found on _ same hd hrep =>
    refine ⟨tracked_marked h same hd hrep, rfl, rfl, fun k => ?_⟩
    have same : dealt (sendAll cfg { s with dir } []) k = dealt s k := by
      simp only [dealt, waits, timesWritten, sendAll, List.foldl_nil, hrep]
    simp [same, isWriteBack, notEvict]

theorem answer_handled (hi : Inv cfg s) (hk : CacheKept cfg s) (h : ∀ line, Tracked cfg s line)
    (k : Taken cfg s (s.takeReply c rest) c lqe) (hrep : s.repUp c = lqe :: rest)
    (hsome : (demandOf lqe.type).isSome = true) (hw : lqe.type ≠ .writeNd)
    (hp : s.dir.processReply cfg t lqe = .ok (dir, effects)) :
    Handled cfg (s.takeReply c rest) (sendAll cfg { s.takeReply c rest with dir } effects.calls)
      lqe := by
  have notEvict : lqe.type ≠ .evict := fun ht => by simp [ht, demandOf] at hsome
  have straight : throughCache lqe.type = false := by
    cases ht : lqe.type <;> simp [ht, throughCache, demandOf] at hsome ⊢
  cases (processReply_replied hk.inv).of_ok hp with
  | served found st calls goes same ho aside off hd hrep' =>
    obtain ⟨d, hdem⟩ := Option.isSome_iff_exists.mp hsome
    obtain ⟨carries, settles⟩ :=
      (answer_carries (hi.marked same) (tracked_recast h same _) (k.recast _ found)
      hrep hdem hw).of_ok (by rw [recast_self]; exact ho)
    refine Ended.handled ⟨wellFormed_takeReply hi.wellFormed hrep, hk.harmless,
      fun line => k.tracked (h line), hd,
      hrep', replied_continues hi same ho hrep fun _ _ ht => absurd ht notEvict, ?_, ?_⟩
      fun call hcall => (aside call hcall).aside
    · rw [writeBackOf_of_ne notEvict]
      exact carries
    · exact settles_marked same settles
  | putBack time wakeups deferred => cases straight.symm.trans deferred.2.1
  | informed found on ht => simp [ht, throughCache] at straight

theorem reply_handled (hi : Inv cfg s) (hk : CacheKept cfg s) (h : ∀ line, Tracked cfg s line)
    (hrep : s.repUp c = lqe :: rest) (hok : WriteBackOk cfg s (.takes c lqe))
    (hp : s.dir.processReply cfg t lqe = .ok (dir, effects)) :
    Handled cfg (s.takeReply c rest) (sendAll cfg { s.takeReply c rest with dir } effects.calls)
      lqe := by
  have k := taken_reply h hk.harmless hrep hok.2
  rcases hi.wellFormed.replies c lqe (hrep ▸ List.mem_cons_self) with ⟨ht, hpath⟩ | ⟨hsome, hw⟩
  · exact evict_handled k h (hi.takeEvict hrep ht) ⟨hk.inv, hk.off, hk.putBack, hk.infos⟩ ht hpath
      (hok.1 ht) hp
  · exact answer_handled hi hk h k hrep hsome hw hp

theorem again_handled (hi : Inv cfg s) (hk : CacheKept cfg s)
    (h : ∀ line, Tracked cfg s line) {i : Nat} (hget : s.dir.repEvent[i]? = some (time, lqe))
    (hok : WriteBackOk cfg s (.again lqe))
    (hp : (s.takeAgain i).dir.processReply cfg t lqe = .ok (dir, effects)) :
    Handled cfg (s.takeAgain i) (sendAll cfg { s.takeAgain i with dir } effects.calls) lqe := by
  have taken : Inv cfg (s.takeAgain i) := hi.congr rfl
  have kept := hk.takeAgain i
  rcases hk.putBack _ (List.mem_of_getElem? hget) with ⟨ht, c, hpath⟩ | ⟨ht, hinfo⟩
  · exact evict_handled (taken_again hk.harmless hget hpath) h taken kept ht hpath
      (fun goes => hok ht goes c hpath) hp
  · have hpath : lqe.path.head? = some cfg.self := by rw [hinfo.2.1]; rfl
    exact info_handled taken kept
      (fun line => (taken_again hk.harmless hget hpath).tracked (h line)) ht hinfo hp

theorem read_handled (hi : Inv cfg s) (hk : CacheKept cfg s)
    (h : ∀ line, Tracked cfg s line) {i : Nat} (hget : s.mc[i]? = some lqe)
    (hp : s.dir.processReply cfg t lqe = .ok (dir, effects)) :
    Handled cfg { s with mc := s.mc.eraseIdx i }
      (sendAll cfg { s with dir, mc := s.mc.eraseIdx i } effects.calls) lqe := by
  have hmem : lqe ∈ s.mc := List.mem_of_getElem? hget
  have ht : lqe.type = .eRd := (hi.wellFormed.memory lqe hmem).1
  have notEvict : lqe.type ≠ .evict := by simp [ht]
  have count := reads_takeRead cfg hget (cfg.lineOf lqe.address)
  rw [if_pos rfl] at count
  obtain ⟨e, he, -, -, -, hload, hreads⟩ :=
    (hi.lines (cfg.lineOf lqe.address)).phase.of_reads (by omega)
  have none : ∀ a, Mark.copy ∉ trail cfg s (cfg.lineOf lqe.address) a := fun a ha => by
    have zero := ((h _).owner a ha).1
    omega
  have taken : ∀ line, Tracked cfg { s with mc := s.mc.eraseIdx i } line := fun line => by
    refine (h line).moved rfl ?_ (fun m hm _ => List.mem_of_mem_eraseIdx hm)
      (fun _ => List.suffix_rfl)
      (fun _ _ hm _ => hm) fun _ _ hm _ => .inl hm
    have fewer := reads_takeRead cfg hget line
    omega
  cases (processReply_replied hk.inv).of_ok hp with
  | served found st calls goes same ho aside off hd hrep =>
    refine Ended.handled ⟨wellFormed_takeRead hi.wellFormed i, hk.harmless, taken, hd, hrep,
      read_continues hi same ho hget, ?_, ?_⟩ fun call hcall => (aside call hcall).aside
    · rw [writeBackOf_of_ne notEvict]
      simp only [reply, ht] at ho
      refine (repFromMc_carries none ht fun e' he' => ?_).of_ok ho
      obtain ⟨e, he, -, hs, -⟩ := core_eq_some same he'
      rw [hs]
      exact (h _).reader lqe hmem rfl e he
    · exact settles_of_zero (by omega) fun a => congrFun (congrFun hload .upgrade) a
  | putBack time wakeups deferred =>
    have through := deferred.2.1
    simp [ht, throughCache] at through
  | informed found on hinfo => cases ht.symm.trans hinfo

theorem request_ended (hi : Inv cfg s) (hk : CacheKept cfg s) (h : ∀ line, Tracked cfg s line)
    (hd : dir.dir = Function.update s.dir.dir line o.entry) (hrep : dir.repEvent = s.dir.repEvent)
    (hcont : Continues cfg line (load cfg s line) (reads cfg s line) o)
    (hcar : Carries cfg (fun a => Mark.copy ∈ trail cfg s line a) [] o)
    (kept : ∀ e, s.dir.dir line = some e → transient e.type = true → o.entry = some e) :
    Ended cfg s dir line o [] := by
  refine ⟨hi.wellFormed, hk.harmless, h, hd, hrep, hcont, hcar, fun e' he' hwait => ?_⟩
  obtain ⟨e, he, waiting⟩ := waiting_entry hi hwait
  have same := kept e he (by rcases waiting with ht | ht <;> rw [ht] <;> rfl)
  cases he'.symm.trans same
  exact ⟨e', he, rfl⟩

theorem request_handled (hi : Inv cfg s) (hk : CacheKept cfg s) (h : ∀ line, Tracked cfg s line)
    (hask : Asks cfg lqe) (hp : s.dir.processRequest cfg t lqe = .ok (dir, effects)) :
    Handled cfg s (sendAll cfg { s with dir } effects.calls) lqe := by
  have notInfo : lqe.type ≠ .rdDirInfoReq := by rcases hask.1 with ht | ht <;> simp [ht]
  have notEvict : lqe.type ≠ .evict := by rcases hask.1 with ht | ht <;> simp [ht]
  have own := fun a ha => ((h (cfg.lineOf lqe.address)).owner a ha).2
  cases (processRequest_requested hk.inv fun _ => notInfo).of_ok hp with
  | served st calls hinfo idle hr aside off hd hrep =>
    obtain ⟨o, ho, hcont⟩ := serve_continues hi t st hask idle
    cases ho.symm.trans hr
    obtain ⟨hcar, kept⟩ := (request_carries own).of_ok ho
    have ended := request_ended hi hk h hd hrep hcont hcar kept
    rw [← @writeBackOf_of_ne _ cfg _ notEvict] at ended
    exact ended.handled aside
  | refused hinfo hcall hd hrep =>
    have hcont := refused_continues hi hask hcall
    obtain ⟨c, path, hpath, hroute⟩ := (meets_addEventToULpp false).of_ok hcall
    have plain := plain_l2 hroute (by simp) (by simp [Dataless, demandOf])
    have ended := request_ended hi hk h (hd.trans (Function.update_eq_self _ _).symm) hrep hcont
      (.plain (by simpa using plain) own) fun e he _ => he
    rw [← @writeBackOf_of_ne _ cfg _ notEvict] at ended
    exact @Ended.handled _ _ _ _ _ _ _ _ ended [] fun _ h => by cases h
  | held e calls on _ he free aside hd hrep =>
    have hcont := held_continues hi on hask he free
    have still : transient e.type = false := by
      simp only [pinned, Bool.or_eq_false_iff] at free
      exact free.1.1
    have ended := request_ended hi hk h hd hrep hcont (.still rfl fun a ha => by
      obtain ⟨e', he', hs, hlent⟩ := own a ha
      cases he.symm.trans he'
      exact ⟨_, rfl, hs, hlent⟩) fun e' he' ht => by
        cases he.symm.trans he'
        cases still.symm.trans ht
    rw [← @writeBackOf_of_ne _ cfg _ notEvict] at ended
    simpa using ended.handled aside
  | resumed e p st on ht => exact absurd ht notInfo

theorem inform_handled (hi : Inv cfg s) (hk : CacheKept cfg s) (h : ∀ line, Tracked cfg s line)
    (ht : lqe.type = .rdDirInfoReq) (on : cfg.hasDirectoryCache = true)
    (hok : WriteBackOk cfg s (.informs lqe))
    (hp : s.dir.processRequest cfg t lqe = .ok (dir, effects)) :
    Handled cfg s (sendAll cfg { s with dir } effects.calls) lqe := by
  obtain ⟨e, he, still⟩ := hok
  have notEvict : lqe.type ≠ .evict := by simp [ht]
  cases (processRequest_requested hk.inv fun no => by cases on.symm.trans no).of_ok hp with
  | served st calls hinfo => cases he.symm.trans (hinfo ht)
  | refused hinfo => cases he.symm.trans (hinfo ht)
  | held e calls _ notInfo => exact absurd ht notInfo
  | resumed e' p st _ _ he' hpending hr hd hrep =>
    cases he'.symm.trans he
    have own : ∀ a, Mark.copy ∈ trail cfg s (cfg.lineOf lqe.address) a →
        ∃ e', some { e with pending := none, notInDc := false } = some e' ∧ e'.sharedL2 = {a} ∧
          Lent e'.type :=
      fun a ha => by
        obtain ⟨-, e', he', hs, hlent⟩ := (h _).owner a ha
        cases he.symm.trans he'
        exact ⟨_, rfl, hs, hlent⟩
    have ended := request_ended hi hk h hd hrep (resumed_continues hi on he still hpending hr)
      ((request_carries own).of_ok hr).1 fun e' he' ht => by
        cases he.symm.trans he'
        cases still.symm.trans ht
    rw [← @writeBackOf_of_ne _ cfg _ notEvict] at ended
    exact @Ended.handled _ _ _ _ _ _ _ _ ended [] fun _ h => by cases h

/-- A write-back is in the channel of the L2 that sent it, or put back, or has been written,
once. -/
structure Ledger (s : Net C) : Prop where
  once : ∀ k c, s.senders[k]? = some c → (s.repUp c).countP (isWriteBack k) + dealt s k = 1
  sent : ∀ k c, 0 < (s.repUp c).countP (isWriteBack k) → s.senders[k]? = some c
  fresh : ∀ k, s.senders.length ≤ k → dealt s k = 0

omit [LinearOrder C] in
theorem Ledger.quiet {s' : Net C} (h : Ledger s) (hsenders : s'.senders = s.senders)
    (hcount : ∀ k c, (s'.repUp c).countP (isWriteBack k) = (s.repUp c).countP (isWriteBack k))
    (hdealt : ∀ k, dealt s' k = dealt s k) : Ledger s' where
  once k c hk := by
    rw [hcount, hdealt]
    exact h.once k c (hsenders ▸ hk)
  sent k c hpos := hsenders ▸ h.sent k c (hcount k c ▸ hpos)
  fresh k hk := by
    rw [hdealt]
    exact h.fresh k (hsenders ▸ hk)

omit [LinearOrder C] in
theorem ledger_init : Ledger ({} : Net C) where
  once k c h := by simp at h
  sent k c h := by simp at h
  fresh _ _ := rfl

theorem receive_ledger (cfg : DirConfig C) (s : Net C) (c : C) (lqe : Lqe C) (rest : List (Lqe C)) :
    (s.receive cfg c lqe rest).senders = s.senders ∧
      (s.receive cfg c lqe rest).written = s.written := by
  unfold receive
  dsimp only
  split
  · exact ⟨rfl, rfl⟩
  · split <;> exact ⟨rfl, rfl⟩

theorem Ledger.answer (h : Ledger s) {i : Nat} (hdem : (demandOf lqe.type).isSome = true) :
    Ledger (s.answer cfg c i lqe) := by
  have no : ∀ k, isWriteBack k (answerOf c (s.holds c (cfg.lineOf lqe.address)) lqe) = false := by
    intro k
    have htype := demandOf_answerOf c (s.holds c (cfg.lineOf lqe.address)) lqe
    have notEvict : (answerOf c (s.holds c (cfg.lineOf lqe.address)) lqe).type ≠ .evict :=
      fun he => by
      rw [← htype, he] at hdem
      cases hdem
    simp [isWriteBack, notEvict]
  refine h.quiet rfl (fun k a => ?_) fun _ => rfl
  by_cases ha : a = c
  · subst ha
    rw [show (s.answer cfg a i lqe).repUp a =
      s.repUp a ++ [answerOf a (s.holds a (cfg.lineOf lqe.address)) lqe] from Function.update_self
        ..]
    simp [no]
  · rw [show (s.answer cfg c i lqe).repUp a = s.repUp a from Function.update_of_ne ha _ _]

theorem Ledger.evict (h : Ledger s) (ht : lqe.type = .evict) : Ledger (s.evict cfg c lqe) := by
  have up : (s.evict cfg c lqe).repUp = Function.update s.repUp c (s.repUp c ++
    [{ lqe with serial := if s.modified c (cfg.lineOf lqe.address) then some s.senders.length
        else none }]) := rfl
  have senders : (s.evict cfg c lqe).senders =
    if s.modified c (cfg.lineOf lqe.address) then s.senders ++ [c] else s.senders := rfl
  have same : ∀ k, dealt (s.evict cfg c lqe) k = dealt s k := fun _ => rfl
  have count : ∀ k a, ((s.evict cfg c lqe).repUp a).countP (isWriteBack k) =
      (s.repUp a).countP (isWriteBack k) +
        if a = c ∧ s.modified c (cfg.lineOf lqe.address) = true ∧ k = s.senders.length then 1
          else 0 := by
    intro k a
    rw [up]
    by_cases ha : a = c
    · subst ha
      cases hm : s.modified a (cfg.lineOf lqe.address) <;>
        simp [isWriteBack, ht, List.countP_cons, eq_comm]
    · simp [ha]
  cases hm : s.modified c (cfg.lineOf lqe.address) with
  | false =>
    simp only [hm, Bool.false_eq_true, if_false, false_and, and_false, add_zero] at senders count
    exact h.quiet senders count same
  | true =>
    simp only [hm, if_true, true_and] at senders count
    have notYet : ∀ a, (s.repUp a).countP (isWriteBack s.senders.length) = 0 := fun a => by
      by_contra hne
      have old := h.sent _ a (Nat.pos_of_ne_zero hne)
      simp at old
    refine ⟨fun k a hk => ?_, fun k a hpos => ?_, fun k hk => ?_⟩
    · rw [same, count]
      rw [senders] at hk
      rcases eq_or_ne k s.senders.length with rfl | hne
      · obtain rfl : c = a := by simpa using hk
        rw [notYet, h.fresh _ le_rfl]
        simp
      · rw [if_neg fun h => hne h.2, add_zero]
        have hlt : k < (s.senders ++ [c]).length := (List.getElem?_eq_some_iff.mp hk).1
        rw [List.length_append, List.length_singleton] at hlt
        rw [List.getElem?_append_left (by omega)] at hk
        exact h.once k a hk
    · rw [senders]
      rw [count] at hpos
      rcases eq_or_ne k s.senders.length with rfl | hne
      · rw [notYet, zero_add] at hpos
        split at hpos
        · rename_i here
          simp [here.1]
        · cases hpos
      · rw [if_neg fun h => hne h.2, add_zero] at hpos
        have old := h.sent k a hpos
        rw [List.getElem?_append_left (List.getElem?_eq_some_iff.mp old).1]
        exact old
    · rw [senders, List.length_append] at hk
      rw [same]
      exact h.fresh k (by omega)

theorem Ledger.replied {s' : Net C} (h : Ledger s) (hrep : s.repUp c = lqe :: rest)
    (hs : Handled cfg (s.takeReply c rest) s' lqe) : Ledger s' := by
  have senders : s'.senders = s.senders := hs.senders
  have count : ∀ k a, (s.repUp a).countP (isWriteBack k) = (s'.repUp a).countP (isWriteBack k) +
      if a = c ∧ isWriteBack k lqe = true then 1 else 0 := by
    intro k a
    rw [hs.repUp]
    by_cases ha : a = c
    · subst ha
      rw [show (s.takeReply a rest).repUp a = rest from Function.update_self .., hrep,
        List.countP_cons]
      simp
    · rw [show (s.takeReply c rest).repUp a = s.repUp a from Function.update_of_ne ha _ _]
      simp [ha]
  have more : ∀ k, dealt s' k = dealt s k + if isWriteBack k lqe then 1 else 0 := hs.dealt
  have from_c : ∀ k, isWriteBack k lqe = true → s.senders[k]? = some c := fun k hk => by
    refine h.sent k c ?_
    rw [hrep]
    exact List.countP_pos_iff.mpr ⟨lqe, List.mem_cons_self, hk⟩
  refine ⟨fun k a hk => ?_, fun k a hpos => ?_, fun k hk => ?_⟩
  · rw [senders] at hk
    have once := h.once k a hk
    rw [count] at once
    rw [more]
    by_cases hwb : isWriteBack k lqe = true
    · obtain rfl : c = a := Option.some.inj ((from_c k hwb).symm.trans hk)
      simp only [hwb, and_self, if_true] at once ⊢
      omega
    · simp only [hwb, Bool.false_eq_true, and_false, if_false, add_zero] at once ⊢
      exact once
  · rw [senders]
    refine h.sent k a ?_
    rw [count]
    omega
  · rw [senders] at hk
    rw [more, h.fresh k hk]
    by_cases hwb : isWriteBack k lqe = true
    · have here := (List.getElem?_eq_some_iff.mp (from_c k hwb)).1
      omega
    · simp [hwb]

theorem Ledger.again {s' : Net C} (h : Ledger s) {i : Nat}
    (hget : s.dir.repEvent[i]? = some (time, lqe)) (hs : Handled cfg (s.takeAgain i) s' lqe) :
      Ledger s' := by
  obtain ⟨hlt, hget⟩ := List.getElem?_eq_some_iff.mp hget
  have perm : ((time, lqe) :: s.dir.repEvent.eraseIdx i).Perm s.dir.repEvent := by
    rw [← hget]
    exact List.getElem_cons_eraseIdx_perm hlt
  refine h.quiet hs.senders (fun k c => by rw [hs.repUp]; rfl) fun k => ?_
  have count := perm.countP_eq fun x => isWriteBack k x.2
  rw [List.countP_cons] at count
  have fewer : dealt s k = dealt (s.takeAgain i) k + if isWriteBack k lqe then 1 else 0 := by
    simp only [dealt, waits, timesWritten, takeAgain, ← count]
    omega
  rw [hs.dealt, fewer]

theorem Ledger.passed {s₁ s' : Net C} (h : Ledger s) (hs : Handled cfg s₁ s' lqe)
    (ht : lqe.type ≠ .evict) (hsenders : s₁.senders = s.senders) (hrep : s₁.repUp = s.repUp)
    (hdealt : ∀ k, dealt s₁ k = dealt s k) :
    Ledger s' := by
  refine h.quiet (hs.senders.trans hsenders) (fun k c => by rw [hs.repUp, hrep]) fun k => ?_
  rw [hs.dealt, hdealt]
  simp [isWriteBack, ht]

structure WriteBacks (cfg : DirConfig C) (s : Net C) : Prop where
  inv : Inv cfg s
  cache : CacheKept cfg s
  tracked : ∀ line, Tracked cfg s line
  ledger : Ledger s

theorem tracked_init (line : Nat) : Tracked cfg ({} : Net C) line := by
  refine ⟨fun c => ?_, fun c hc => ?_, fun c m hm => ?_, fun c m hm => ?_, fun c m hm => ?_,
    fun m hm => ?_⟩
  · simp [trail, up, putBack, Leads, flagMark]
  · simp [trail, up, putBack, flagMark] at hc
  · simp at hm
  · simp at hm
  · simp [owed] at hm
  · simp at hm

theorem Tracked.quiet (h : Tracked cfg s line) {s' : Net C} (hdir : s'.dir = s.dir)
    (hmc : s'.mc = s.mc) (htodo : s'.todo = s.todo) (hdown : s'.down = s.down)
    (hrep : s'.repUp = s.repUp) (hmod : s'.modified = s.modified) : Tracked cfg s' line := by
  have same : ∀ a, trail cfg s' line a = trail cfg s line a := fun a =>
    trail_congr (up_congr hdir (congrFun hrep a)) (by rw [hmod]) (by rw [htodo]) (by rw [hdown])
  exact h.moved (by rw [hdir]) (by rw [reads, hmc, reads]) (fun _ hm _ => hmc ▸ hm)
    (fun a => same a ▸ List.suffix_rfl) (fun _ _ hm _ => htodo ▸ hdown ▸ hm) fun _ _ hm _ =>
      .inl (hrep ▸ hm)

theorem writeBacks_step (h : WriteBacks cfg s) {s' : Net C} (hs : Step cfg (WriteBackOk cfg) s s') :
    (∀ line, Tracked cfg s' line) ∧ Ledger s' := by
  obtain ⟨hi, hk, ht, hl⟩ := h
  cases hs with
  | request c lqe _ _ _ =>
    exact ⟨fun line => (ht line).quiet rfl rfl rfl rfl rfl rfl,
      hl.quiet rfl (fun _ _ => rfl) fun _ => rfl⟩
  | drop c line' =>
    exact ⟨fun line => (ht line).quiet rfl rfl rfl rfl rfl rfl,
      hl.quiet rfl (fun _ _ => rfl) fun _ => rfl⟩
  | evict c lqe _ htype _ => exact ⟨fun line => (ht line).evict htype, hl.evict htype⟩
  | receive c lqe rest hdown =>
    obtain ⟨hdir, -, -, up, -⟩ := receive_fixed cfg s c lqe rest
    obtain ⟨senders, written⟩ := receive_ledger cfg s c lqe rest
    refine ⟨fun line => (ht line).receive hdown,
      hl.quiet senders (fun k a => by rw [up]) fun k => ?_⟩
    simp only [dealt, waits, timesWritten, hdir, written]
  | answer c i lqe hget hok =>
    exact ⟨fun line => (ht line).answer hi hk hget hok,
      hl.answer (hi.wellFormed.demands c lqe (List.mem_of_getElem? hget))⟩
  | reply c t lqe rest hrep hok hp =>
    have handled := reply_handled hi hk ht hrep hok hp
    exact ⟨handled.tracked, hl.replied hrep handled⟩
  | serve c t lqe rest hreq hp =>
    obtain ⟨hc, hpath, htype⟩ := hi.wellFormed.requests c lqe (hreq ▸ List.mem_cons_self)
    obtain ⟨path, hpath⟩ := List.head?_eq_some_iff.mp hpath
    have taken : Inv cfg { s with reqUp := Function.update s.reqUp c rest } :=
      hi.quiet rfl rfl (fun _ => rfl) (wellFormed_takeRequest hi.wellFormed hreq)
    have handled := request_handled taken (hk.quiet rfl rfl)
      (fun line => (ht line).quiet rfl rfl rfl rfl rfl rfl) ⟨htype, c, path, hpath, hc⟩ hp
    have notEvict : lqe.type ≠ .evict := by rcases htype with h | h <;> simp [h]
    exact ⟨handled.tracked, hl.passed handled notEvict rfl rfl fun _ => rfl⟩
  | memory i t lqe hget hp =>
    have htype := (hi.wellFormed.memory lqe (List.mem_of_getElem? hget)).1
    have handled := read_handled hi hk ht hget hp
    exact ⟨handled.tracked, hl.passed handled (by simp [htype]) rfl rfl fun _ => rfl⟩
  | again i t time lqe hget hok hp =>
    have handled := again_handled hi hk ht hget hok hp
    exact ⟨handled.tracked, hl.again hget handled⟩
  | infoRequest i t lqe hget htype hok hp =>
    have taken : Inv cfg { s with infos := s.infos.eraseIdx i } := hi.quiet rfl rfl (fun _ => rfl)
      ⟨hi.wellFormed.1, hi.wellFormed.2, hi.wellFormed.3, hi.wellFormed.4, hi.wellFormed.5⟩
    have on : cfg.hasDirectoryCache = true := by
      by_contra off
      simp [(hk.off (by simpa using off)).1] at hget
    have handled := inform_handled taken (hk.takeInfo i)
      (fun line => (ht line).quiet rfl rfl rfl rfl rfl rfl) htype on hok hp
    exact ⟨handled.tracked, hl.passed handled (by simp [htype]) rfl rfl fun _ => rfl⟩
  | infoReply i t lqe hget htype hp =>
    have taken : Inv cfg { s with infos := s.infos.eraseIdx i } := hi.quiet rfl rfl (fun _ => rfl)
      ⟨hi.wellFormed.1, hi.wellFormed.2, hi.wellFormed.3, hi.wellFormed.4, hi.wellFormed.5⟩
    have handled := info_handled taken (hk.takeInfo i)
      (fun line => (ht line).quiet rfl rfl rfl rfl rfl rfl) htype
        (hk.infos lqe (List.mem_of_getElem? hget)) hp
    exact ⟨handled.tracked, hl.passed handled (by simp [htype]) rfl rfl fun _ => rfl⟩

theorem run_kept (h : Run cfg (WriteBackOk cfg) s) : WriteBacks cfg s := by
  induction h with
  | init => exact ⟨inv_init, cacheKept_init, tracked_init, ledger_init⟩
  | step _ hs ih =>
    obtain ⟨inv, cache⟩ := inv_step (fun _ _ ok goes => ok.evictOk goes) ih.inv ih.cache hs
    obtain ⟨tracked, ledger⟩ := writeBacks_step ih hs
    exact ⟨inv, cache, tracked, ledger⟩

/-- The one write of a write-back is made and nothing is deleted; besides it the directory cache
sends directory information at most. Or the write-back has been put back. -/
inductive WritesBack (cfg : DirConfig C) (t : Nat) (s : Directory C) (lqe : Lqe C) :
    Directory C × Effects C → Prop
  | written {s'} (others : List (Call C)) :
      (∀ call ∈ others, Information cfg (cfg.lineOf lqe.address) call) →
      (cfg.hasDirectoryCache = false → others = []) → s'.repEvent = s.repEvent →
      WritesBack cfg t s lqe (s', { calls := others ++ [toMc cfg t (lqe.push cfg.self)] })
  | putBack {s'} (time : Nat) (wakeups : List Nat) : Deferred cfg s lqe → s'.dir = s.dir →
      s'.repEvent = Multimap.insert time lqe s.repEvent → WritesBack cfg t s lqe (s', { wakeups })

theorem evict_writesBack (k : Taken cfg s s₀ c lqe) (h : ∀ line, Tracked cfg s line)
    (hk : CacheKept cfg s₀) (ht : lqe.type = .evict) (hserial : lqe.serial.isSome = true)
    (hpath : lqe.path.head? = some c) (fits : ¬ Deferred cfg s₀.dir lqe →
      ∀ e, s₀.dir.dir (cfg.lineOf lqe.address) = some e → Fits c lqe e) :
    ∃ r, s₀.dir.processReply cfg t lqe = .ok r ∧ WritesBack cfg t s₀.dir lqe r := by
  obtain ⟨path, hpath⟩ := List.head?_eq_some_iff.mp hpath
  have writes : ¬ Deferred cfg s₀.dir lqe → ∀ found st,
      found.map core = (s₀.dir.dir (cfg.lineOf lqe.address)).map core →
      ∃ entry stats, reply cfg t found lqe st =
        .ok { entry, calls := [toMc cfg t (lqe.push cfg.self)], stats } :=
          fun goes found st same => by
    obtain ⟨e, he, hs, hMS⟩ := writeBack_entry (h _) (k.copy ht hserial) hserial (k.dir ▸ fits goes)
    rw [← k.dir] at he
    obtain ⟨e', rfl, ht', hs', -⟩ := core_eq_some same.symm he
    rw [hs] at hs'
    simp only [reply, ht]
    exact repEvict_writes hpath (ht' ▸ hMS) (by simp [← hs']) (by simp [← hs'])
  have replied := @processReply_replied _ _ _ t lqe _ hk.inv
  cases hp : s₀.dir.processReply cfg t lqe with
  | error a =>
    rw [hp] at replied
    obtain ⟨goes, found, st, same, stops⟩ := replied
    obtain ⟨entry, stats, written⟩ := writes goes found st same
    cases written.symm.trans stops
  | ok r =>
    rw [hp] at replied
    refine ⟨r, rfl, ?_⟩
    cases replied with
    | served found st calls goes same ho aside off hd hrep =>
      obtain ⟨entry, stats, written⟩ := writes goes found st same
      cases written.symm.trans ho
      exact .written calls aside off hrep
    | putBack time wakeups deferred hd hrep => exact .putBack time wakeups deferred hd hrep
    | informed found on hinfo => cases ht.symm.trans hinfo

/-- In every run without the steps above, a write-back is still on its way, or put back, or has been
written, once. When the directory takes one it writes it or puts it back, and deletes nothing. -/
theorem run_writeBacks (h : Run cfg (WriteBackOk cfg) s) :
    (∀ k c, s.senders[k]? = some c →
      (s.repUp c).countP (isWriteBack k) + waits s k + timesWritten s k = 1) ∧
    (∀ c lqe rest t, s.repUp c = lqe :: rest → lqe.type = .evict → lqe.serial.isSome = true →
      WriteBackOk cfg s (.takes c lqe) →
      ∃ r, s.dir.processReply cfg t lqe = .ok r ∧ WritesBack cfg t s.dir lqe r) ∧
    ∀ i time lqe t, s.dir.repEvent[i]? = some (time, lqe) → lqe.type = .evict →
      lqe.serial.isSome = true →
      WriteBackOk cfg s (.again lqe) →
      ∃ r, (s.takeAgain i).dir.processReply cfg t lqe = .ok r ∧
        WritesBack cfg t (s.takeAgain i).dir lqe r := by
  obtain ⟨hi, hk, ht, hl⟩ := run_kept h
  refine ⟨fun k c hc => (Nat.add_assoc ..).trans (hl.once k c hc),
    fun c lqe rest t hrep htype hserial hok => ?_, fun i time lqe t hget htype hserial hok => ?_⟩
  · have k := taken_reply ht hk.harmless hrep hok.2
    have kept : CacheKept cfg (s.takeReply c rest) := ⟨hk.inv, hk.off, hk.putBack, hk.infos⟩
    rcases hi.wellFormed.replies c lqe (hrep ▸ List.mem_cons_self) with ⟨-, hpath⟩ | ⟨hsome, -⟩
    · have done := evict_writesBack (t := t) k ht kept htype hserial hpath (hok.1 htype)
      exact done
    · simp [htype, demandOf] at hsome
  · rcases hk.putBack _ (List.mem_of_getElem? hget) with ⟨-, c, hpath⟩ | ⟨hinfo, -⟩
    · exact evict_writesBack (taken_again hk.harmless hget hpath) ht (hk.takeAgain i) htype
        hserial hpath
        fun goes => hok htype goes c hpath
    · cases htype.symm.trans hinfo

def fourL2sCached : DirConfig Nat := { fourL2s with hasDirectoryCache := true }

/-- An L2 writes a line, which then leaves the directory cache for another one, and evicts it. The
directory puts the write-back back while it waits for the data of the other line, and writes it
after. -/
theorem run_writeBacks_evicted : ∃ s₁ s, Run fourL2sCached (WriteBackOk fourL2sCached) s₁ ∧
    waits s₁ 0 = 1 ∧
    Run fourL2sCached (WriteBackOk fourL2sCached) s ∧ s.senders = [1] ∧ timesWritten s 0 = 1 := by
  have r : Run fourL2sCached (WriteBackOk fourL2sCached) {} := .init
  have r := r.step (.request 1 (message 1 .write) (by decide) rfl (.inr rfl))
  have r := r.step (.serve 1 0 _ _ rfl rfl)
  have r := r.step (.memory 0 0 _ rfl rfl)
  have r := r.step (.receive 1 _ _ rfl)
  have r := r.step (.request 2 { message 2 .read with address := 128 } (by decide) rfl (.inl rfl))
  have r := r.step (.serve 2 0 _ _ rfl rfl)
  have r := r.step (.evict 1 (message 1 .evict) rfl rfl rfl)
  -- the write-back is put back
  have r₁ := r.step (.reply 1 0 _ _ rfl ⟨fun _ _ _ he => (by cases he; exact ⟨fun h => (by cases h),
    fun _ => (by decide), fun h => (by cases h)⟩), fun h => (by cases h)⟩ rfl)
  have r := r₁.step (.memory 0 0 _ rfl rfl)
  have r := r.step (.again 0 20 _ _ rfl
    (fun _ _ c hc _ he => (by cases he; exact ⟨fun h => (by cases h),
    fun _ => (by decide), fun h => (by cases h)⟩)) rfl)
  exact ⟨_, _, r₁, (run_writeBacks r₁).1 0 1 rfl, r, rfl, (run_writeBacks r).1 0 1 rfl⟩

/-- A write-back that meets an entry in `cs_tr_to_m`. A second L2 has asked to write, and the
directory has told the owner to give the line up when the owner's `et_evict` arrives. The owner then
has no data to return, and the directory reads the line from the memory, which never got it. -/
theorem write_back_deleted : ∃ s lqe, Run fourL2s (fun _ _ => True) s ∧ s.senders[0]? = some 1 ∧
    s.repUp 1 = [] ∧ timesWritten s 0 = 0 ∧ s.written = [] ∧ s.mc = [lqe] ∧ lqe.type = .eRd ∧
    lqe.path = [0, 2] := by
  have r : Run fourL2s (fun _ _ => True) {} := .init
  have r := r.step (.request 1 (message 1 .write) (by decide) rfl (.inr rfl))
  have r := r.step (.serve 1 0 _ _ rfl rfl)
  have r := r.step (.memory 0 0 _ rfl rfl)
  have r := r.step (.receive 1 _ _ rfl)
  -- the second L2 writes, and the first one evicts the line
  have r := r.step (.request 2 (message 2 .write) (by decide) rfl (.inr rfl))
  have r := r.step (.serve 2 0 _ _ rfl rfl)
  have r := r.step (.evict 1 (message 1 .evict) rfl rfl rfl)
  have r := r.step (.reply 1 0 _ _ rfl trivial rfl)
  -- it answers the invalidation without data
  have r := r.step (.receive 1 _ _ rfl)
  have r := r.step (.answer 1 0 _ rfl trivial)
  have r := r.step (.reply 1 0 _ _ rfl trivial rfl)
  exact ⟨_, _, r, rfl, rfl, rfl, rfl, rfl, rfl, rfl⟩

end Net
end McSim
