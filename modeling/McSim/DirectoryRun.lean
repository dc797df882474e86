import McSim.DirectoryMessages

/-! Runs of a directory among its L2s.
Every line stays in a phase, whatever the interleaving, as long as no `et_evict` of an L2 is
processed while the entry still waits for that L2's first copy. -/

namespace McSim

namespace Net

open Directory

variable {C : Type} [LinearOrder C] {cfg : DirConfig C} {s : Net C} {line : Nat}

/-- The reply the directory may not meet: the `et_evict` of an L2 that the entry lists while it
waits for that L2's first copy. With a directory cache there is another one: information for a
request that is no longer held. -/
def EvictOk (cfg : DirConfig C) (s : Net C) : Act C → Prop
  | .takes c lqe => ∀ e, s.dir.dir (cfg.lineOf lqe.address) = some e → lqe.type = .evict →
      e.type = .trToE → c ∉ e.sharedL2
  | .again lqe => ∀ c, lqe.path.head? = some c →
      ∀ e, s.dir.dir (cfg.lineOf lqe.address) = some e → lqe.type = .evict → e.type = .trToE →
        c ∉ e.sharedL2
  | .informs lqe => ∃ e, s.dir.dir (cfg.lineOf lqe.address) = some e ∧ transient e.type = false
  | .answers _ _ => True

def Goes (cfg : DirConfig C) (s : Net C) : Act C → Prop
  | .takes _ lqe | .again lqe => ¬ Deferred cfg s.dir lqe
  | .informs _ | .answers _ _ => True

def takeReply (s : Net C) (c : C) (rest : List (Lqe C)) : Net C :=
  { s with repUp := Function.update s.repUp c rest }

theorem wellFormed_takeReply (h : WellFormed cfg s) {c : C} {lqe : Lqe C} {rest : List (Lqe C)}
    (hrep : s.repUp c = lqe :: rest) : WellFormed cfg (s.takeReply c rest) := by
  have kept : ∀ a, ∀ lqe' ∈ (s.takeReply c rest).repUp a, lqe' ∈ s.repUp a := by
    intro a lqe' hmem
    rcases eq_or_ne a c with rfl | ha
    · simp only [takeReply, Function.update_self] at hmem
      exact hrep ▸ List.mem_cons_of_mem _ hmem
    · simpa only [takeReply, Function.update_of_ne ha] using hmem
  refine ⟨fun a lqe' hmem ht => h.invals a lqe' ?_ ht, h.requests,
    fun a lqe' hmem => h.replies a lqe' (kept a lqe' hmem), h.demands, h.memory⟩
  simp only [owed, List.mem_append] at hmem ⊢
  exact hmem.imp_right (kept a lqe')

omit [LinearOrder C] in
theorem wellFormed_takeRead (h : WellFormed cfg s) (i : Nat) :
    WellFormed cfg { s with mc := s.mc.eraseIdx i } :=
  ⟨h.invals, h.requests, h.replies, h.demands,
    fun lqe' hmem => h.memory lqe' (List.mem_of_mem_eraseIdx hmem)⟩

theorem wellFormed_takeRequest (h : WellFormed cfg s) {c : C} {lqe : Lqe C} {rest : List (Lqe C)}
    (hreq : s.reqUp c = lqe :: rest) :
    WellFormed cfg { s with reqUp := Function.update s.reqUp c rest } := by
  refine ⟨h.invals, fun a lqe' hmem => h.requests a lqe' ?_, h.replies, h.demands, h.memory⟩
  rcases eq_or_ne a c with rfl | ha
  · simp only [Function.update_self] at hmem
    exact hreq ▸ List.mem_cons_of_mem _ hmem
  · simpa only [Function.update_of_ne ha] using hmem

theorem load_takeReply {c : C} {lqe : Lqe C} {rest : List (Lqe C)} (hrep : s.repUp c = lqe :: rest)
    (line : Nat) : load cfg s line = fun d a =>
      load cfg (s.takeReply c rest) line d a + if a = c ∧ about cfg line d lqe then 1 else 0 := by
  funext d a
  rcases eq_or_ne a c with rfl | ha
  · simp only [load, owed, takeReply, Function.update_self, hrep, List.countP_append,
      List.countP_cons, true_and]
    omega
  · simp [load, owed, takeReply, ha]

theorem load_takeReply_other {c : C} {lqe : Lqe C} {rest : List (Lqe C)}
    (hrep : s.repUp c = lqe :: rest) (h : ∀ d, about cfg line d lqe = false) :
    load cfg (s.takeReply c rest) line = load cfg s line := by
  rw [load_takeReply hrep line]
  funext d a
  simp [h d]

theorem load_takeReply_self {c : C} {lqe : Lqe C} {rest : List (Lqe C)} {d : Demand}
    (hrep : s.repUp c = lqe :: rest) (hd : demandOf lqe.type = some d) :
    load cfg (s.takeReply c rest) (cfg.lineOf lqe.address) =
      less (load cfg s (cfg.lineOf lqe.address)) d c := by
  rw [load_takeReply hrep]
  funext d' a
  by_cases h : d = d' ∧ c = a
  · obtain ⟨rfl, rfl⟩ := h
    simp [less, about, hd]
  · have away : ¬ (a = c ∧ d = d') := fun same => h ⟨same.2, same.1.symm⟩
    simp [less, single, about, hd, h, away]

theorem lineInv_takeReply (h : Inv cfg s) {c : C} {lqe : Lqe C} {rest : List (Lqe C)}
    (hrep : s.repUp c = lqe :: rest) (hline : line ≠ cfg.lineOf lqe.address) :
    LineInv cfg (s.takeReply c rest) line := by
  have away : ∀ d, about cfg line d lqe = false := by simp [about, hline.symm]
  refine ⟨?_, (h.lines line).named⟩
  rw [load_takeReply_other hrep away]
  exact (h.lines line).phase

theorem pass_continues (h : Inv cfg s) {lqe : Lqe C} (t : Nat) (st : DirStats) {c : C}
    {path : List C} (hpath : lqe.path = c :: path)
    (hok : lqe.type = .evict ∧ (∀ e, s.dir.dir (cfg.lineOf lqe.address) = some e → e.type = .trToE →
      c ∉ e.sharedL2) ∨ lqe.type = .rdDirInfoRep ∧ c = cfg.self) :
    ∃ o, reply cfg t (s.dir.dir (cfg.lineOf lqe.address)) lqe st = .ok o ∧
      Continues cfg (cfg.lineOf lqe.address) (load cfg s (cfg.lineOf lqe.address))
        (reads cfg s (cfg.lineOf lqe.address)) o := by
  obtain ⟨hphase, hnamed⟩ := h.lines (cfg.lineOf lqe.address)
  have through : throughCache lqe.type = true := by
    rcases hok with ⟨ht, -⟩ | ⟨ht, -⟩ <;> rw [ht] <;> rfl
  obtain ⟨gone, passed⟩ := @reply_through _ _ cfg t lqe st through
  cases he : s.dir.dir (cfg.lineOf lqe.address) with
  | none =>
    rw [he] at hphase
    exact ⟨_, gone, continues_silent rfl hphase (fun _ h => by cases h)⟩
  | some e =>
    rw [he] at hphase
    rw [passed]
    rcases hok with ⟨ht, hok⟩ | ⟨-, rfl⟩
    · exact repEvict_continues hphase (hnamed e he) hpath rfl ht (hok e he)
    · have unlisted : cfg.self ∉ e.sharedL2 :=
        fun hc => cfg.self_notMem ((hnamed e he).sharers _ hc)
      obtain ⟨st', hr⟩ := @repEvict_unlisted _ _ cfg t e lqe st _ _ _ _ hphase hpath unlisted
      exact ⟨_, hr, continues_silent rfl hphase fun e' h => by cases h; exact hnamed e he⟩

theorem Inv.takeEvict (h : Inv cfg s) {c : C} {lqe : Lqe C} {rest : List (Lqe C)}
    (hrep : s.repUp c = lqe :: rest) (ht : lqe.type = .evict) : Inv cfg (s.takeReply c rest) := by
  refine h.quiet rfl rfl (fun line => ?_) (wellFormed_takeReply h.wellFormed hrep)
  exact load_takeReply_other hrep fun d => by simp [about, ht, demandOf]

theorem reply_continues (h : Inv cfg s) {c : C} {lqe : Lqe C} {rest : List (Lqe C)} (t : Nat)
    (st : DirStats) (hrep : s.repUp c = lqe :: rest) (hok : EvictOk cfg s (.takes c lqe)) :
    ∃ o, reply cfg t (s.dir.dir (cfg.lineOf lqe.address)) lqe st = .ok o ∧
      Continues cfg (cfg.lineOf lqe.address)
        (load cfg (s.takeReply c rest) (cfg.lineOf lqe.address))
        (reads cfg (s.takeReply c rest) (cfg.lineOf lqe.address)) o := by
  have hmem : lqe ∈ s.repUp c := hrep ▸ List.mem_cons_self
  rcases h.wellFormed.replies c lqe hmem with ⟨ht, hpath⟩ | ⟨hsome, hw⟩
  · obtain ⟨path, hpath⟩ := List.head?_eq_some_iff.mp hpath
    exact pass_continues (h.takeEvict hrep ht) t st hpath (.inl ⟨ht, fun e he => hok e he ht⟩)
  · obtain ⟨hphase, hnamed⟩ := h.lines (cfg.lineOf lqe.address)
    have howed : lqe ∈ s.owed c := by simp [owed, hmem]
    obtain ⟨d, hd⟩ := Option.isSome_iff_exists.mp hsome
    have hload : 1 ≤ load cfg s (cfg.lineOf lqe.address) d c := by
      refine List.countP_pos_iff.mpr ⟨lqe, howed, ?_⟩
      simp [about, hd]
    rw [load_takeReply_self hrep hd]
    exact answer_continues hphase hnamed hd hw hload
      (fun hi => h.wellFormed.invals c lqe howed (hi ▸ hd)) rfl

omit [LinearOrder C] in
theorem reads_takeRead (cfg : DirConfig C) {i : Nat} {lqe : Lqe C} (hi : s.mc[i]? = some lqe)
    (line : Nat) :
    reads cfg s line = reads cfg { s with mc := s.mc.eraseIdx i } line +
      if cfg.lineOf lqe.address = line then 1 else 0 := by
  obtain ⟨hlt, hget⟩ := List.getElem?_eq_some_iff.mp hi
  have taken : (lqe :: s.mc.eraseIdx i).Perm s.mc := by
    rw [← hget]
    exact List.getElem_cons_eraseIdx_perm hlt
  have count := taken.countP_eq fun lqe => decide (cfg.lineOf lqe.address = line)
  rw [List.countP_cons] at count
  simpa [reads] using count.symm

theorem memory_reply_continues (h : Inv cfg s) {i : Nat} {lqe : Lqe C} (t : Nat) (st : DirStats)
    (hi : s.mc[i]? = some lqe) :
    ∃ o, reply cfg t (s.dir.dir (cfg.lineOf lqe.address)) lqe st = .ok o ∧
      Continues cfg (cfg.lineOf lqe.address) (load cfg s (cfg.lineOf lqe.address))
        (reads cfg { s with mc := s.mc.eraseIdx i } (cfg.lineOf lqe.address)) o := by
  obtain ⟨hphase, hnamed⟩ := h.lines (cfg.lineOf lqe.address)
  obtain ⟨ht, c, c', path, hpath⟩ := h.wellFormed.memory lqe (List.mem_of_getElem? hi)
  have count := reads_takeRead cfg hi (cfg.lineOf lqe.address)
  rw [if_pos rfl] at count
  have less : reads cfg { s with mc := s.mc.eraseIdx i } (cfg.lineOf lqe.address) =
      reads cfg s (cfg.lineOf lqe.address) - 1 := by omega
  rw [less]
  exact memory_continues hphase hnamed (by omega) hpath ht rfl

def Asks (cfg : DirConfig C) (lqe : Lqe C) : Prop :=
  (lqe.type = .read ∨ lqe.type = .write) ∧ ∃ c path, lqe.path = c :: path ∧ c ∈ cfg.l2s

theorem serve_continues (h : Inv cfg s) {lqe : Lqe C} (t : Nat) (st : DirStats)
    (hask : Asks cfg lqe) (idle : ∀ e, s.dir.dir (cfg.lineOf lqe.address) = some e →
      cfg.hasDirectoryCache = true → e.pending = none) :
    ∃ o, request cfg t (s.dir.dir (cfg.lineOf lqe.address)) lqe st = .ok o ∧
      Continues cfg (cfg.lineOf lqe.address) (load cfg s (cfg.lineOf lqe.address))
        (reads cfg s (cfg.lineOf lqe.address)) o := by
  obtain ⟨hphase, hnamed⟩ := h.lines (cfg.lineOf lqe.address)
  obtain ⟨ht, c, path, hpath, hc⟩ := hask
  refine request_continues hphase hnamed (fun e he hst => ?_) hpath hc rfl ht
  cases on : cfg.hasDirectoryCache with
  | true => exact idle e he on
  | false =>
    rw [he, on] at hphase
    exact hphase.idle hst

def recast (s : Net C) (line : Nat) (found : Option (DirEntry C)) : Net C :=
  { s with dir := s.dir.setEntry line found }

omit [LinearOrder C] in
@[simp] theorem recast_self (found : Option (DirEntry C)) :
    (s.recast line found).dir.dir line = found :=
  setEntry_self _ _

theorem Inv.recast (h : Inv cfg s) {found : Option (DirEntry C)}
    (hphase : Phase cfg.hasDirectoryCache (load cfg s line) (reads cfg s line) found)
    (hnamed : ∀ e, found = some e → Named cfg line e) : Inv cfg (s.recast line found) := by
  refine ⟨⟨h.wellFormed.1, h.wellFormed.2, h.wellFormed.3, h.wellFormed.4, h.wellFormed.5⟩,
    fun line' => ?_⟩
  by_cases hline : line' = line
  · subst hline
    exact ⟨by rw [recast_self]; exact hphase, by rw [recast_self]; exact hnamed⟩
  · have there : (s.recast line found).dir.dir line' = s.dir.dir line' := setEntry_of_ne _ hline
    exact ⟨by rw [there]; exact (h.lines line').phase, by rw [there]; exact (h.lines line').named⟩

theorem Inv.marked (h : Inv cfg s) {found : Option (DirEntry C)}
    (same : found.map core = (s.dir.dir line).map core) : Inv cfg (s.recast line found) :=
  h.recast ((h.lines line).phase.congr same) (Named.congr (h.lines line).named same)

omit [LinearOrder C] in
theorem spared_marked {found : Option (DirEntry C)} {c : C}
    (same : found.map core = (s.dir.dir line).map core)
    (h : ∀ e, s.dir.dir line = some e → e.type = .trToE → c ∉ e.sharedL2) :
    ∀ e, (s.recast line found).dir.dir line = some e → e.type = .trToE → c ∉ e.sharedL2 := by
  intro e' he' ht'
  rw [recast_self] at he'
  obtain ⟨e, he, ht, hs, -⟩ := core_eq_some same he'
  rw [hs]
  exact h e he (ht ▸ ht')

section
variable {t : Nat} {lqe : Lqe C} {st : DirStats} {found : Option (DirEntry C)} {o : Outcome C}
  (h : Inv cfg s) (same : found.map core = (s.dir.dir (cfg.lineOf lqe.address)).map core)
  (ho : reply cfg t found lqe st = .ok o)
include h same ho

theorem replied_continues {c : C} {rest : List (Lqe C)} (hrep : s.repUp c = lqe :: rest)
    (hok : EvictOk cfg s (.takes c lqe)) :
    Continues cfg (cfg.lineOf lqe.address) (load cfg (s.takeReply c rest) (cfg.lineOf lqe.address))
      (reads cfg (s.takeReply c rest) (cfg.lineOf lqe.address)) o := by
  have hok' : EvictOk cfg (s.recast (cfg.lineOf lqe.address) found) (.takes c lqe) := fun e he ht =>
    spared_marked same (fun e he => hok e he ht) e he
  obtain ⟨o', ho', hcont⟩ := reply_continues (h.marked same) t st hrep hok'
  rw [recast_self] at ho'
  cases ho'.symm.trans ho
  exact hcont

theorem read_continues {i : Nat} (hi : s.mc[i]? = some lqe) :
    Continues cfg (cfg.lineOf lqe.address) (load cfg s (cfg.lineOf lqe.address))
      (reads cfg { s with mc := s.mc.eraseIdx i } (cfg.lineOf lqe.address)) o := by
  obtain ⟨o', ho', hcont⟩ := memory_reply_continues (h.marked same) t st hi
  rw [recast_self] at ho'
  cases ho'.symm.trans ho
  exact hcont

theorem passed_continues (passes : Passes cfg lqe) (hok : EvictOk cfg s (.again lqe)) :
    Continues cfg (cfg.lineOf lqe.address) (load cfg s (cfg.lineOf lqe.address))
      (reads cfg s (cfg.lineOf lqe.address)) o := by
  have continues : ∃ o, reply cfg t
    ((s.recast (cfg.lineOf lqe.address) found).dir.dir (cfg.lineOf lqe.address))
      lqe st = .ok o ∧ Continues cfg (cfg.lineOf lqe.address) (load cfg s (cfg.lineOf lqe.address))
        (reads cfg s (cfg.lineOf lqe.address)) o := by
    rcases passes with ⟨ht, c, hpath⟩ | ⟨ht, -, hpath, -⟩
    · obtain ⟨path, hc⟩ := List.head?_eq_some_iff.mp hpath
      exact pass_continues (h.marked same) t st hc
        (.inl ⟨ht, spared_marked same fun e he => hok c hpath e he ht⟩)
    · exact pass_continues (h.marked same) t st hpath (.inr ⟨ht, rfl⟩)
  obtain ⟨o', ho', hcont⟩ := continues
  rw [recast_self] at ho'
  cases ho'.symm.trans ho
  exact hcont

end

theorem Inv.congr (h : Inv cfg s) {dir : Directory C} (hd : dir.dir = s.dir.dir) :
    Inv cfg { s with dir } := by
  refine ⟨⟨h.wellFormed.1, h.wellFormed.2, h.wellFormed.3, h.wellFormed.4, h.wellFormed.5⟩,
    fun line => ?_⟩
  have same : ({ s with dir } : Net C).dir.dir = s.dir.dir := hd
  exact ⟨by rw [same]; exact (h.lines line).phase, by rw [same]; exact (h.lines line).named⟩

theorem CacheKept.sent (h : CacheKept cfg s) {calls more : List (Call C)} {dir : Directory C}
    (inv : cfg.hasDirectoryCache = true → CacheInv cfg dir)
    (off : cfg.hasDirectoryCache = false → calls = [])
    (hrep : ∀ x ∈ dir.repEvent, x ∈ s.dir.repEvent ∨ cfg.hasDirectoryCache = true ∧ Passes cfg x.2)
    (aside : ∀ call ∈ calls, Aside cfg line call)
    (proper : ∀ call ∈ more, Proper cfg line (route cfg call)) :
    CacheKept cfg (sendAll cfg { s with dir } (calls ++ more)) := by
  obtain ⟨infos, written, hs, hi, -⟩ := @sendAll_aside _ _ cfg { s with dir } line calls aside
  have hdir : (sendAll cfg { s with dir } (calls ++ more)).dir = dir := by
    rw [sendAll_append, hs]
    exact sendAll_dir _ more
  have hinfos : (sendAll cfg { s with dir } (calls ++ more)).infos = s.infos ++ infos := by
    rw [sendAll_append, hs]
    exact sendAll_infos proper
  refine ⟨fun on => by rw [hdir]; exact inv on, fun no => ?_, fun x hx => ?_, fun m hm => ?_⟩
  · rw [off no] at hs
    have none : infos = [] := by
      have same := congrArg Net.infos hs
      simpa [sendAll] using same
    obtain ⟨hinfo, hback⟩ := h.off no
    rw [hinfos, hdir, hinfo, none]
    refine ⟨rfl, List.eq_nil_iff_forall_not_mem.mpr fun x hx => ?_⟩
    rcases hrep x hx with old | ⟨on, -⟩
    · rw [hback] at old
      cases old
    · cases on.symm.trans no
  · rw [hdir] at hx
    rcases hrep x hx with old | ⟨-, new⟩
    · exact h.putBack x old
    · exact new
  · rw [hinfos, List.mem_append] at hm
    exact hm.elim (h.infos m) (hi m)

theorem handled_kept (wf : WellFormed cfg s) (hk : CacheKept cfg s) {dir : Directory C}
    {o : Outcome C} {calls : List (Call C)} (others : ∀ line', line' ≠ line → LineInv cfg s line')
    (aside : ∀ call ∈ calls, Aside cfg line call) (off : cfg.hasDirectoryCache = false → calls = [])
    (inv : cfg.hasDirectoryCache = true → CacheInv cfg dir)
    (hd : dir.dir = Function.update s.dir.dir line o.entry) (hrep : dir.repEvent = s.dir.repEvent)
    (hcont : Continues cfg line (load cfg s line) (reads cfg s line) o) :
    Inv cfg (sendAll cfg { s with dir } (calls ++ o.calls)) ∧
      CacheKept cfg (sendAll cfg { s with dir } (calls ++ o.calls)) := by
  refine ⟨?_, hk.sent inv off (fun x hx => .inl (hrep ▸ hx)) aside hcont.proper⟩
  obtain ⟨infos, written, hs, -, -⟩ := @sendAll_aside _ _ cfg { s with dir } line calls aside
  rw [sendAll_append, hs]
  exact Inv.handled (s := { s with infos := s.infos ++ infos, written := s.written ++ written })
    ⟨wf.1, wf.2, wf.3, wf.4, wf.5⟩
    (fun line hline => ⟨(others line hline).phase, (others line hline).named⟩)
    hd hcont

/-- A reply that has been taken: its handler's outcome fits the line, or the directory cache has
kept it and the line is as it was. -/
theorem reply_kept (wf : WellFormed cfg s) (hk : CacheKept cfg s) {t : Nat} {lqe : Lqe C}
    {dir : Directory C} {effects : Effects C}
    (others : ∀ line, line ≠ cfg.lineOf lqe.address → LineInv cfg s line)
    (here : throughCache lqe.type = true → Passes cfg lqe ∧ LineInv cfg s (cfg.lineOf lqe.address))
    (served : ¬ Deferred cfg s.dir lqe →
      ∀ found st o, found.map core = (s.dir.dir (cfg.lineOf lqe.address)).map core →
      reply cfg t found lqe st = .ok o → Continues cfg (cfg.lineOf lqe.address)
        (load cfg s (cfg.lineOf lqe.address)) (reads cfg s (cfg.lineOf lqe.address)) o)
    (hp : s.dir.processReply cfg t lqe = .ok (dir, effects)) :
    Inv cfg (sendAll cfg { s with dir } effects.calls) ∧
      CacheKept cfg (sendAll cfg { s with dir } effects.calls) := by
  have inv : cfg.hasDirectoryCache = true → CacheInv cfg dir := fun on =>
    (processReply_inv (hk.inv on) on).of_ok hp
  have all : LineInv cfg s (cfg.lineOf lqe.address) → Inv cfg s := fun hline => ⟨wf, fun line => by
    by_cases hl : line = cfg.lineOf lqe.address
    · exact hl ▸ hline
    · exact others line hl⟩
  cases (processReply_replied hk.inv).of_ok hp with
  | served found st calls goes same ho aside off hd hrep =>
    exact handled_kept wf hk others (fun call hcall => (aside call hcall).aside) off inv hd hrep
      (served goes found st _ same ho)
  | putBack time wakeups deferred hd hrep =>
    obtain ⟨on, through, -⟩ := deferred
    obtain ⟨passes, hline⟩ := here through
    refine ⟨(all hline).congr hd, @CacheKept.sent _ _ _ _ 0 hk [] [] _ inv (fun _ => rfl)
      (fun x hx => ?_) (fun _ h => by cases h) fun _ h => by cases h⟩
    rw [hrep, Multimap.mem_insert] at hx
    exact hx.symm.imp id fun new => ⟨on, by rw [new]; exact passes⟩
  | informed found on ht same hd hrep =>
    obtain ⟨-, hline⟩ := here (by rw [ht]; rfl)
    exact ⟨((all hline).marked same).congr hd,
      @CacheKept.sent _ _ _ _ 0 hk [] [] _ inv (fun _ => rfl)
      (fun x hx => .inl (hrep ▸ hx)) (fun _ h => by cases h) fun _ h => by cases h⟩

theorem refused_continues (h : Inv cfg s) {lqe : Lqe C} {t : Nat} {call : Call C}
    (hask : Asks cfg lqe) (hcall : addEventToULpp cfg t { lqe with type := .nack }
      false = .ok call) :
    Continues cfg (cfg.lineOf lqe.address) (load cfg s (cfg.lineOf lqe.address))
      (reads cfg s (cfg.lineOf lqe.address))
      { entry := s.dir.dir (cfg.lineOf lqe.address), calls := [call], stats := s.dir.stats } := by
  obtain ⟨hphase, hnamed⟩ := h.lines (cfg.lineOf lqe.address)
  obtain ⟨-, c, path, hpath, -⟩ := hask
  obtain ⟨call', hcall', hroute⟩ :=
    @addEventToULpp_ok _ _ cfg t { lqe with type := .nack } c path false hpath
  cases hcall'.symm.trans hcall
  refine continues_up rfl hroute rfl (by simp [demandOf]) ?_ hphase hnamed
  rw [sentTo_cons_l2 hroute rfl]
  simp

theorem held_continues (h : Inv cfg s) (on : cfg.hasDirectoryCache = true) {lqe : Lqe C}
    {e : DirEntry C} (hask : Asks cfg lqe) (he : s.dir.dir (cfg.lineOf lqe.address) = some e)
    (free : pinned e = false) :
    Continues cfg (cfg.lineOf lqe.address) (load cfg s (cfg.lineOf lqe.address))
      (reads cfg s (cfg.lineOf lqe.address))
      { entry := some { e with pending := some lqe, notInDc := true }, stats := s.dir.stats } := by
  obtain ⟨hphase, hnamed⟩ := h.lines (cfg.lineOf lqe.address)
  obtain ⟨ht, c, path, hpath, hc⟩ := hask
  have still : transient e.type = false := by
    simp only [pinned, Bool.or_eq_false_iff] at free
    exact free.1.1
  rw [he] at hphase
  refine continues_silent rfl (hphase.held on still rfl rfl) ?_
  rintro e' ⟨⟩
  exact (hnamed e he).hold hpath hc rfl ht _ rfl rfl

theorem resumed_continues (h : Inv cfg s) (on : cfg.hasDirectoryCache = true) {t : Nat}
    {st : DirStats} {p : Lqe C} {e : DirEntry C} {o : Outcome C} (he : s.dir.dir line = some e)
    (still : transient e.type = false) (hpending : e.pending = some p)
    (hr : request cfg t (some { e with pending := none, notInDc := false }) p st = .ok o) :
    Continues cfg line (load cfg s line) (reads cfg s line) o := by
  obtain ⟨hphase, hnamed⟩ := h.lines line
  rw [he] at hphase
  obtain ⟨rfl, htype, c, path, hpath, hc⟩ := (hnamed e he).pending p hpending
  have freed : Inv cfg (s.recast (cfg.lineOf p.address)
    (some { e with pending := none, notInDc := false })) := by
    refine h.recast (hphase.held on still rfl rfl) ?_
    rintro e' ⟨⟩
    exact ⟨(hnamed e he).sharers, fun _ h => by cases h⟩
  obtain ⟨o', ho', hcont⟩ :=
    @serve_continues _ _ _ _ freed p t st ⟨htype, c, path, hpath, hc⟩ fun e' he' _ => by
    cases (recast_self _).symm.trans he'
    rfl
  rw [recast_self] at ho'
  cases ho'.symm.trans hr
  exact hcont

theorem request_kept (h : Inv cfg s) (hk : CacheKept cfg s) {t : Nat} {lqe : Lqe C}
    {dir : Directory C} {effects : Effects C} (hask : Asks cfg lqe)
    (hp : s.dir.processRequest cfg t lqe = .ok (dir, effects)) :
    Inv cfg (sendAll cfg { s with dir } effects.calls) ∧
      CacheKept cfg (sendAll cfg { s with dir } effects.calls) := by
  have inv : cfg.hasDirectoryCache = true → CacheInv cfg dir := fun on =>
    (processRequest_inv (hk.inv on) on).of_ok hp
  have notInfo : lqe.type ≠ .rdDirInfoReq := by rcases hask.1 with ht | ht <;> simp [ht]
  have others : ∀ line, line ≠ cfg.lineOf lqe.address → LineInv cfg s line :=
    fun line _ => h.lines line
  cases (processRequest_requested hk.inv fun _ => notInfo).of_ok hp with
  | served st calls hinfo idle hr aside off hd hrep =>
    obtain ⟨o, ho, hcont⟩ := serve_continues h t st hask idle
    cases ho.symm.trans hr
    exact handled_kept h.wellFormed hk others aside off inv hd hrep hcont
  | refused hinfo hcall hd hrep =>
    exact @handled_kept _ _ _ _ _ h.wellFormed hk _ _ [] others (fun _ h => by cases h)
      (fun _ => rfl) inv
      (hd.trans (Function.update_eq_self _ _).symm) hrep (refused_continues h hask hcall)
  | held e calls on _ he free aside hd hrep =>
    have kept := handled_kept h.wellFormed hk others aside
      (fun no => by cases on.symm.trans no) inv hd hrep
      (held_continues h on hask he free)
    simpa using kept
  | resumed e p st on ht => exact absurd ht notInfo

theorem inform_kept (h : Inv cfg s) (hk : CacheKept cfg s) {t : Nat} {lqe : Lqe C}
    {dir : Directory C} {effects : Effects C} (ht : lqe.type = .rdDirInfoReq)
    (on : cfg.hasDirectoryCache = true) (hok : EvictOk cfg s (.informs lqe))
    (hp : s.dir.processRequest cfg t lqe = .ok (dir, effects)) :
    Inv cfg (sendAll cfg { s with dir } effects.calls) ∧
      CacheKept cfg (sendAll cfg { s with dir } effects.calls) := by
  obtain ⟨e, he, still⟩ := hok
  have inv : cfg.hasDirectoryCache = true → CacheInv cfg dir := fun on =>
    (processRequest_inv (hk.inv on) on).of_ok hp
  cases (processRequest_requested hk.inv fun no => by cases on.symm.trans no).of_ok hp with
  | served st calls hinfo => cases he.symm.trans (hinfo ht)
  | refused hinfo => cases he.symm.trans (hinfo ht)
  | held e calls _ notInfo => exact absurd ht notInfo
  | resumed e' p st _ _ he' hpending hr hd hrep =>
    cases he.symm.trans he'
    have hcont := resumed_continues h on he still hpending hr
    exact @handled_kept _ _ _ _ _ h.wellFormed hk _ _ [] (fun line _ => h.lines line)
      (fun _ h => by cases h)
      (fun _ => rfl) inv hd hrep hcont

omit [LinearOrder C] in
theorem CacheKept.takeAgain (h : CacheKept cfg s) (i : Nat) : CacheKept cfg (s.takeAgain i) where
  inv on := (h.inv on).congr rfl rfl
  off no := ⟨(h.off no).1, by rw [Net.takeAgain, (h.off no).2]; rfl⟩
  putBack x hx := h.putBack x (List.mem_of_mem_eraseIdx hx)
  infos := h.infos

omit [LinearOrder C] in
theorem CacheKept.takeInfo (h : CacheKept cfg s) (i : Nat) :
    CacheKept cfg { s with infos := s.infos.eraseIdx i } where
  inv := h.inv
  off no := ⟨by rw [(h.off no).1]; rfl, (h.off no).2⟩
  putBack := h.putBack
  infos m hm := h.infos m (List.mem_of_mem_eraseIdx hm)

theorem inv_reply (h : Inv cfg s) (hk : CacheKept cfg s) {c : C} {t : Nat} {lqe : Lqe C}
    {rest : List (Lqe C)} {dir : Directory C} {effects : Effects C} (hrep : s.repUp c = lqe :: rest)
    (hok : ¬ Deferred cfg s.dir lqe → EvictOk cfg s (.takes c lqe))
    (hp : s.dir.processReply cfg t lqe = .ok (dir, effects)) :
    Inv cfg (sendAll cfg { s.takeReply c rest with dir } effects.calls) ∧
      CacheKept cfg (sendAll cfg { s.takeReply c rest with dir } effects.calls) := by
  have hk' : CacheKept cfg (s.takeReply c rest) := ⟨hk.inv, hk.off, hk.putBack, hk.infos⟩
  refine reply_kept (wellFormed_takeReply h.wellFormed hrep) hk'
    (fun line hline => lineInv_takeReply h hrep hline) (fun through => ?_)
    (fun goes found st o same ho => ?_) hp
  · rcases h.wellFormed.replies c lqe (hrep ▸ List.mem_cons_self) with ⟨ht, hpath⟩ | ⟨hsome, -⟩
    · exact ⟨.inl ⟨ht, c, hpath⟩, (h.takeEvict hrep ht).lines _⟩
    · cases ht : lqe.type <;> simp [ht, throughCache, demandOf] at through hsome
  · exact replied_continues h same ho hrep (hok goes)

theorem inv_memory (h : Inv cfg s) (hk : CacheKept cfg s) {i t : Nat} {lqe : Lqe C}
    {dir : Directory C} {effects : Effects C} (hi : s.mc[i]? = some lqe)
    (hp : s.dir.processReply cfg t lqe = .ok (dir, effects)) :
    Inv cfg (sendAll cfg { s with dir, mc := s.mc.eraseIdx i } effects.calls) ∧
      CacheKept cfg (sendAll cfg { s with dir, mc := s.mc.eraseIdx i } effects.calls) := by
  have ht : lqe.type = .eRd := (h.wellFormed.memory lqe (List.mem_of_getElem? hi)).1
  refine reply_kept (s := { s with mc := s.mc.eraseIdx i }) (wellFormed_takeRead h.wellFormed i)
    ⟨hk.inv, hk.off, hk.putBack, hk.infos⟩ (fun line hline => ⟨?_, (h.lines line).named⟩)
    (fun through => ?_) (fun _ found st o same ho => ?_) hp
  · have count := reads_takeRead cfg hi line
    rw [if_neg hline.symm, add_zero] at count
    exact count ▸ (h.lines line).phase
  · simp [ht, throughCache] at through
  · exact read_continues h same ho hi

theorem pass_kept (h : Inv cfg s) (hk : CacheKept cfg s) {t : Nat} {lqe : Lqe C} {dir : Directory C}
    {effects : Effects C} (passes : Passes cfg lqe)
    (hok : ¬ Deferred cfg s.dir lqe → EvictOk cfg s (.again lqe))
    (hp : s.dir.processReply cfg t lqe = .ok (dir, effects)) :
    Inv cfg (sendAll cfg { s with dir } effects.calls) ∧
      CacheKept cfg (sendAll cfg { s with dir } effects.calls) := by
  exact reply_kept h.wellFormed hk (fun line _ => h.lines line) (fun _ => ⟨passes, h.lines _⟩)
    (fun goes _ _ _ same ho => passed_continues h same ho passes (hok goes)) hp

omit [LinearOrder C] in
theorem CacheKept.quiet {s' : Net C} (h : CacheKept cfg s) (hdir : s'.dir = s.dir)
    (hinfos : s'.infos = s.infos) :
    CacheKept cfg s' := by
  refine ⟨?_, ?_, ?_, ?_⟩
  · rw [hdir]
    exact h.inv
  · rw [hdir, hinfos]
    exact h.off
  · rw [hdir]
    exact h.putBack
  · rw [hinfos]
    exact h.infos

theorem inv_step {ok : Net C → Act C → Prop} (hok : ∀ s a, ok s a → Goes cfg s a → EvictOk cfg s a)
    {s s' : Net C} (h : Inv cfg s) (hk : CacheKept cfg s) (hs : Step cfg ok s s') :
    Inv cfg s' ∧ CacheKept cfg s' := by
  cases hs with
  | request c lqe hc hpath ht => exact ⟨inv_request h hc hpath ht, hk.quiet rfl rfl⟩
  | drop c line =>
    exact ⟨h.quiet rfl rfl (fun _ => rfl) ⟨h.wellFormed.invals, h.wellFormed.requests,
      h.wellFormed.replies, h.wellFormed.demands, h.wellFormed.memory⟩, hk.quiet rfl rfl⟩
  | evict c lqe hpath ht _ => exact ⟨inv_evict h hpath ht, hk.quiet rfl rfl⟩
  | receive c lqe rest hdown =>
    exact ⟨inv_receive h hdown,
      hk.quiet (receive_fixed cfg s c lqe rest).1 (receive_infos cfg s c lqe rest)⟩
  | answer c i lqe hi _ => exact ⟨inv_answer h hi, hk.quiet rfl rfl⟩
  | reply c t lqe rest hrep ho hp => exact inv_reply h hk hrep (hok _ _ ho) hp
  | serve c t lqe rest hreq hp =>
    obtain ⟨hc, hpath, ht⟩ := h.wellFormed.requests c lqe (hreq ▸ List.mem_cons_self)
    obtain ⟨path, hpath⟩ := List.head?_eq_some_iff.mp hpath
    have h' : Inv cfg { s with reqUp := Function.update s.reqUp c rest } :=
      h.quiet rfl rfl (fun _ => rfl) (wellFormed_takeRequest h.wellFormed hreq)
    exact request_kept h' (hk.quiet rfl rfl) ⟨ht, c, path, hpath, hc⟩ hp
  | memory i t lqe hi hp => exact inv_memory h hk hi hp
  | again i t time lqe hi ho hp =>
    have passes := hk.putBack _ (List.mem_of_getElem? hi)
    have taken : Inv cfg (s.takeAgain i) := h.congr rfl
    exact pass_kept taken (hk.takeAgain i) passes (hok s _ ho) hp
  | infoRequest i t lqe hi ht ho hp =>
    have taken : Inv cfg { s with infos := s.infos.eraseIdx i } :=
      h.quiet rfl rfl (fun _ => rfl) ⟨h.wellFormed.1, h.wellFormed.2, h.wellFormed.3,
        h.wellFormed.4, h.wellFormed.5⟩
    refine inform_kept taken (hk.takeInfo i) ht ?_ (hok s _ ho trivial) hp
    cases on : cfg.hasDirectoryCache with
    | true => rfl
    | false => simp [(hk.off on).1] at hi
  | infoReply i t lqe hi ht hp =>
    have taken : Inv cfg { s with infos := s.infos.eraseIdx i } :=
      h.quiet rfl rfl (fun _ => rfl) ⟨h.wellFormed.1, h.wellFormed.2, h.wellFormed.3,
        h.wellFormed.4, h.wellFormed.5⟩
    refine pass_kept taken (hk.takeInfo i) (.inr ⟨ht, hk.infos lqe (List.mem_of_getElem? hi)⟩) ?_ hp
    exact fun _ c _ e _ he => by cases ht.symm.trans he

theorem run_inv {ok : Net C → Act C → Prop} (hok : ∀ s a, ok s a → Goes cfg s a → EvictOk cfg s a)
    {s : Net C} (h : Run cfg ok s) : Inv cfg s ∧ CacheKept cfg s := by
  induction h with
  | init => exact ⟨inv_init, cacheKept_init⟩
  | step _ hs ih => exact inv_step hok ih.1 ih.2 hs

structure EntryOk (e : DirEntry C) : Prop where
  owned : e.type = .exclusive ∨ e.type = .modified → e.sharedL2.card = 1 ∧ e.pending = none
  shared : e.type = .shared → e.sharedL2.Nonempty
  lent : e.type = .trToS ∨ e.type = .mToS → e.pending ≠ none
  known : e.type ≠ .invalid

theorem entryOk_of_phase {load : Demand → C → Nat} {reads : Nat} {e : DirEntry C}
    (h : Phase false load reads (some e)) : EntryOk e := by
  cases h with
  | owned ht hs hp =>
    refine ⟨fun _ => ⟨hs, hp rfl⟩, ?_, ?_, ?_⟩ <;> rcases ht with h | h <;> simp [h]
  | shared ht hs => exact ⟨by simp [ht], fun _ => hs, by simp [ht], by simp [ht]⟩
  | reading ht => refine ⟨?_, ?_, ?_, ?_⟩ <;> rcases ht with h | h <;> simp [h]
  | upgrading _ ht => exact ⟨by simp [ht], by simp [ht], by simp [ht], by simp [ht]⟩
  | invalidating _ ht => exact ⟨by simp [ht], by simp [ht], by simp [ht], by simp [ht]⟩
  | lending p c ht hp =>
    refine ⟨?_, ?_, fun _ => by simp [hp], ?_⟩ <;> rcases ht with h | h <;> simp [h]

/-- In every run without the eviction above, every entry is as it should be, and whatever message
the directory takes next, it does not stop. -/
theorem run_entryOk (hd : cfg.hasDirectoryCache = false) {s : Net C} (h : Run cfg (EvictOk cfg) s) :
    (∀ line e, s.dir.dir line = some e → EntryOk e) ∧
    (∀ c lqe rest t, s.repUp c = lqe :: rest → EvictOk cfg s (.takes c lqe) →
      ∃ r, s.dir.processReply cfg t lqe = .ok r) ∧
    (∀ c lqe rest t, s.reqUp c = lqe :: rest → ∃ r, s.dir.processRequest cfg t lqe = .ok r) ∧
    (∀ (i : Nat) lqe t, s.mc[i]? = some lqe → ∃ r, s.dir.processReply cfg t lqe = .ok r) := by
  have inv : Inv cfg s := (run_inv (fun _ _ h _ => h) h).1
  refine ⟨fun line e he => ?_, fun c lqe rest t hrep hok => ?_, fun c lqe rest t hreq => ?_,
    fun i lqe t hi => ?_⟩
  · have hphase := (inv.lines line).phase
    rw [he, hd] at hphase
    exact entryOk_of_phase hphase
  · obtain ⟨o, ho, -⟩ := reply_continues inv t s.dir.stats hrep hok
    exact ⟨_, processReply_ok hd ho⟩
  · obtain ⟨hc, hpath, ht⟩ := inv.wellFormed.requests c lqe (hreq ▸ List.mem_cons_self)
    obtain ⟨path, hpath⟩ := List.head?_eq_some_iff.mp hpath
    obtain ⟨o, ho, -⟩ := serve_continues inv t s.dir.stats ⟨ht, c, path, hpath, hc⟩ fun _ _ on => by
      cases on.symm.trans hd
    exact ⟨_, processRequest_ok hd ho⟩
  · obtain ⟨o, ho, -⟩ := memory_reply_continues inv t s.dir.stats hi
    exact ⟨_, processReply_ok hd ho⟩

/-- A directory with four L2s, the first of them its own. -/
def fourL2s : DirConfig Nat where
  self := 0
  cachel2 := 1
  crossbar := 9
  crossbar_ne := (by decide : ¬ 9 = 1)
  memoryController := 8
  l2s := [1, 2, 3, 4]
  l2s_nodup := by decide
  self_notMem := by decide
  setLsb := 6
  numSets := 1
  numSets_pos := Nat.one_pos
  numWays := 1
  dirToMcT := 10
  dirToL2T := 10
  dirToXbarT := 10
  numFlitsPerPacket := 3
  hasDirectoryCache := false
  useLimitless := false
  limitlessBroadcastThreshold := 4
  processInterval := 10

def message (c : Nat) (type : EventType) : Lqe Nat := { path := [c], type, address := 64 }

/-- Two L2s read the line, and the first of them evicts it. -/
theorem run_entryOk_shared : ∃ s e, Run fourL2s (EvictOk fourL2s) s ∧ s.dir.dir 1 = some e ∧
    e.sharedL2 = {2} ∧ EntryOk e := by
  have r : Run fourL2s (EvictOk fourL2s) {} := .init
  have r := r.step (.request 1 (message 1 .read) (by decide) rfl (.inl rfl))
  have r := r.step (.serve 1 0 _ _ rfl rfl)
  have r := r.step (.memory 0 0 _ rfl rfl)
  have r := r.step (.receive 1 _ _ rfl)
  have r := r.step (.request 2 (message 2 .read) (by decide) rfl (.inl rfl))
  have r := r.step (.serve 2 0 _ _ rfl rfl)
  have r := r.step (.receive 1 _ _ rfl)
  have r := r.step (.answer 1 0 _ rfl trivial)
  have r := r.step (.reply 1 0 _ _ rfl (fun _ _ h => by cases h) rfl)
  have r := r.step (.evict 1 (message 1 .evict) rfl rfl rfl)
  have r := r.step (.reply 1 0 _ _ rfl (fun _ he _ h => by cases he; cases h) rfl)
  exact ⟨_, _, r, rfl, by decide, (run_entryOk rfl r).1 1 _ rfl⟩

/-- An `et_evict` that comes after the L2 has lost the line and asked for it again. The first L2
has given its copy up, so that its write-back is still on the way from below, when the second one
writes; after that the first L2 reads, and the write-back ends the entry that its read has made.
The two reads of the memory then serve the entries of others, and the last of them makes an
entry modified while it waits for an invalidation. -/
theorem late_evict : ∃ s e, Run fourL2s (fun _ _ => True) s ∧ s.dir.dir 1 = some e ∧
    ¬ EntryOk e := by
  have r : Run fourL2s (fun _ _ => True) {} := .init
  have r := r.step (.request 1 (message 1 .write) (by decide) rfl (.inr rfl))
  have r := r.step (.serve 1 0 _ _ rfl rfl)
  have r := r.step (.memory 0 0 _ rfl rfl)
  have r := r.step (.receive 1 _ _ rfl)
  have r := r.step (.drop 1 1)
  -- the second L2 gets the line and evicts it
  have r := r.step (.request 2 (message 2 .write) (by decide) rfl (.inr rfl))
  have r := r.step (.serve 2 0 _ _ rfl rfl)
  have r := r.step (.receive 1 _ _ rfl)
  have r := r.step (.answer 1 0 _ rfl trivial)
  have r := r.step (.reply 1 0 _ _ rfl trivial rfl)
  have r := r.step (.memory 0 0 _ rfl rfl)
  have r := r.step (.receive 2 _ _ rfl)
  have r := r.step (.evict 2 (message 2 .evict) rfl rfl rfl)
  have r := r.step (.reply 2 0 _ _ rfl trivial rfl)
  -- the first L2 reads, and its only `et_evict` arrives
  have r := r.step (.request 1 (message 1 .read) (by decide) rfl (.inl rfl))
  have r := r.step (.serve 1 0 _ _ rfl rfl)
  have r := r.step (.evict 1 (message 1 .evict) rfl rfl rfl)
  have r := r.step (.reply 1 0 _ _ rfl trivial rfl)
  -- the third L2 reads, the fourth one writes
  have r := r.step (.request 3 (message 3 .read) (by decide) rfl (.inl rfl))
  have r := r.step (.serve 3 0 _ _ rfl rfl)
  have r := r.step (.memory 0 0 _ rfl rfl)
  have r := r.step (.request 4 (message 4 .write) (by decide) rfl (.inr rfl))
  have r := r.step (.serve 4 0 _ _ rfl rfl)
  have r := r.step (.memory 0 0 _ rfl rfl)
  refine ⟨_, _, r, rfl, fun h => ?_⟩
  have idle := (h.owned (.inr rfl)).2
  revert idle
  decide

end Net
end McSim
