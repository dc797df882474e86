import McSim.DirectoryInvariant

/-! Messages at the directory cache.
Without a directory cache a message is what its handler makes of it. With one, a reply may be put
back and a request refused or held, and what the cache changes of an entry no phase depends on. -/

namespace McSim

namespace Directory

open Contract

variable {C : Type} [LinearOrder C] {cfg : DirConfig C} {t : Nat} {lqe : Lqe C} {s : Directory C}
  {o : Outcome C}

omit [LinearOrder C] in
@[simp] theorem apply_dir (line : Nat) :
    (s.apply cfg line o).dir = Function.update s.dir line o.entry := by
  unfold apply
  dsimp only
  split <;> rfl

omit [LinearOrder C] in
@[simp] theorem apply_repEvent (line : Nat) : (s.apply cfg line o).repEvent = s.repEvent := by
  unfold apply
  dsimp only
  split <;> rfl

theorem processReply_ok (hd : cfg.hasDirectoryCache = false)
    (h : reply cfg t (s.dir (cfg.lineOf lqe.address)) lqe s.stats = .ok o) :
    s.processReply cfg t lqe =
      .ok (s.apply cfg (cfg.lineOf lqe.address) o, { calls := o.calls, deleted := o.deleted }) := by
  have served : serveReply cfg t s lqe [] =
      .ok (s.apply cfg (cfg.lineOf lqe.address) o, { calls := o.calls, deleted := o.deleted }) := by
    simp only [serveReply, h]
    rfl
  unfold processReply
  split
  · exact served
  · split
    · simpa [cacheOnReply, hd] using served
    · exact served

theorem processRequest_ok (hd : cfg.hasDirectoryCache = false)
    (h : request cfg t (s.dir (cfg.lineOf lqe.address)) lqe s.stats = .ok o) :
    s.processRequest cfg t lqe =
      .ok (s.apply cfg (cfg.lineOf lqe.address) o, { calls := o.calls, deleted := o.deleted }) := by
  have passed : cacheOnRequest cfg t s lqe = .ok (.go s lqe [] []) := by
    unfold cacheOnRequest
    split <;> simp [cacheOnNew, cacheOnFound, hd] <;> rfl
  simp only [processRequest, passed, bind, Except.bind, serveRequest, h, List.isEmpty_nil,
    Bool.not_true, Bool.false_and, Bool.false_eq_true, if_false]
  rfl

def Aside (cfg : DirConfig C) (line : Nat) (call : Call C) : Prop :=
  ∃ t type address, call = infoMessage cfg t type address ∧ cfg.lineOf address = line ∧ type ≠ .eRd

def Information (cfg : DirConfig C) (line : Nat) (call : Call C) : Prop :=
  ∃ t type address, call = infoMessage cfg t type address ∧ cfg.lineOf address = line ∧
    (type = .dirEvict ∨ isInfo type = true)

omit [LinearOrder C] in
theorem Information.aside {line : Nat} {call : Call C} (h : Information cfg line call) :
    Aside cfg line call := by
  obtain ⟨t, type, address, hcall, hline, ht⟩ := h
  refine ⟨t, type, address, hcall, hline, ?_⟩
  rintro rfl
  simp [isInfo] at ht

/-- The directory cache puts the reply back: the entry is on its way from the memory, or nothing in
its set may be displaced for it. -/
def Deferred (cfg : DirConfig C) (s : Directory C) (lqe : Lqe C) : Prop :=
  cfg.hasDirectoryCache = true ∧ throughCache lqe.type = true ∧
    ∃ e, s.dir (cfg.lineOf lqe.address) = some e ∧
      if cfg.lineOf lqe.address ∈ s.dirCache (cfg.lineOf lqe.address % cfg.numSets) then
        lqe.type ≠ .rdDirInfoRep ∧ e.notInDc = true
      else (s.dirCache (cfg.lineOf lqe.address % cfg.numSets)).length = cfg.numWays ∧
        (scanVictim s.dir (s.dirCache (cfg.lineOf lqe.address % cfg.numSets))).2 = none

/-- A handler takes a reply, the directory cache puts it back, or it was directory information for
an entry that is listed. -/
inductive Replied (cfg : DirConfig C) (t : Nat) (s : Directory C) (lqe : Lqe C) :
    Directory C × Effects C → Prop
  | served {s' o} (found : Option (DirEntry C)) (st : DirStats) (calls : List (Call C)) :
      ¬ Deferred cfg s lqe →
      found.map core = (s.dir (cfg.lineOf lqe.address)).map core →
        reply cfg t found lqe st = .ok o →
      (∀ call ∈ calls, Information cfg (cfg.lineOf lqe.address) call) →
      (cfg.hasDirectoryCache = false → calls = []) →
      s'.dir = Function.update s.dir (cfg.lineOf lqe.address) o.entry → s'.repEvent = s.repEvent →
      Replied cfg t s lqe (s', { calls := calls ++ o.calls, deleted := o.deleted })
  | putBack {s'} (time : Nat) (wakeups : List Nat) : Deferred cfg s lqe →
      s'.dir = s.dir → s'.repEvent = Multimap.insert time lqe s.repEvent →
      Replied cfg t s lqe (s', { wakeups })
  | informed {s'} (found : Option (DirEntry C)) : cfg.hasDirectoryCache = true →
      lqe.type = .rdDirInfoRep →
      found.map core = (s.dir (cfg.lineOf lqe.address)).map core →
      s'.dir = Function.update s.dir (cfg.lineOf lqe.address) found → s'.repEvent = s.repEvent →
      Replied cfg t s lqe (s', { deleted := [lqe] })

def ReplyStops (cfg : DirConfig C) (t : Nat) (s : Directory C) (lqe : Lqe C) (a : Abort) : Prop :=
  ¬ Deferred cfg s lqe ∧ ∃ found st, found.map core = (s.dir (cfg.lineOf lqe.address)).map core ∧
    reply cfg t found lqe st = .error a

theorem serveReply_replied {s₁ : Directory C} {found : Option (DirEntry C)} {calls : List (Call C)}
    (hd : s₁.dir = Function.update s.dir (cfg.lineOf lqe.address) found)
    (hrep : s₁.repEvent = s.repEvent)
    (same : found.map core = (s.dir (cfg.lineOf lqe.address)).map core) (goes : ¬ Deferred cfg s
      lqe) (aside : ∀ call ∈ calls, Information cfg (cfg.lineOf lqe.address) call)
    (off : cfg.hasDirectoryCache = false → calls = []) :
    Meets (ReplyStops cfg t s lqe) (Replied cfg t s lqe) (serveReply cfg t s₁ lqe calls) := by
  have here : s₁.dir (cfg.lineOf lqe.address) = found := by rw [hd, Function.update_self]
  unfold serveReply
  rw [here]
  cases h : reply cfg t found lqe s₁.stats with
  | error a => exact ⟨goes, found, s₁.stats, same, h⟩
  | ok o =>
    refine .served found s₁.stats calls goes same h aside off ?_ ?_
    · rw [apply_dir, hd, Function.update_idem]
    · rw [apply_repEvent, hrep]

def Decided (cfg : DirConfig C) (t : Nat) (s : Directory C) (lqe : Lqe C) : Stage C → Prop
  | .stop s' effects => Replied cfg t s lqe (s', effects)
  | .go s₁ lqe' calls _ => lqe' = lqe ∧ ¬ Deferred cfg s lqe ∧ s₁.repEvent = s.repEvent ∧
      (∀ call ∈ calls, Information cfg (cfg.lineOf lqe.address) call) ∧
      (cfg.hasDirectoryCache = false → calls = []) ∧
      ∃ found, found.map core = (s.dir (cfg.lineOf lqe.address)).map core ∧
        s₁.dir = Function.update s.dir (cfg.lineOf lqe.address) found

theorem retry_decided {s₁ : Directory C} (deferred : Deferred cfg s lqe) (hd : s₁.dir = s.dir)
    (hrep : s₁.repEvent = s.repEvent) (time : Nat) :
      Decided cfg t s lqe (retry cfg s₁ time lqe) := by
  have notReq : lqe.type ≠ .rdDirInfoReq := fun h => by
    have through := deferred.2.1
    simp [h, throughCache] at through
  refine .putBack (ceilByY time cfg.processInterval) _ deferred ?_ ?_
  · rw [addRepEvent, if_neg notReq]
    exact hd
  · rw [addRepEvent, if_neg notReq, ← hrep]

omit [LinearOrder C] in
theorem aside_info {type : EventType} (ht : type ≠ .eRd) :
    Aside cfg (cfg.lineOf lqe.address) (infoMessage cfg t type lqe.address) :=
  ⟨t, type, lqe.address, rfl, rfl, ht⟩

omit [LinearOrder C] in
theorem information_info {type : EventType} (ht : type = .dirEvict ∨ isInfo type = true) :
    Information cfg (cfg.lineOf lqe.address) (infoMessage cfg t type lqe.address) :=
  ⟨t, type, lqe.address, rfl, rfl, ht⟩

theorem cacheOnReply_decided (h : cfg.hasDirectoryCache = true → CacheInv cfg s) {e : DirEntry C}
    (he : s.dir (cfg.lineOf lqe.address) = some e) (through : throughCache lqe.type = true) :
    Decided cfg t s lqe (cacheOnReply cfg t s e lqe) := by
  have passed : ∀ s₁ : Directory C, ¬ Deferred cfg s lqe → s₁.dir = s.dir →
    s₁.repEvent = s.repEvent →
      Decided cfg t s lqe (.go s₁ lqe [] []) := fun s₁ goes hd hrep =>
    ⟨rfl, goes, hrep, (fun _ h => by cases h), fun _ => rfl, s.dir (cfg.lineOf lqe.address), rfl,
      hd.trans (Function.update_eq_self _ _).symm⟩
  unfold cacheOnReply
  dsimp only
  split
  · rename_i off
    refine passed s (fun deferred => ?_) rfl rfl
    cases off.symm.trans deferred.1
  rename_i on
  have on : cfg.hasDirectoryCache = true := by simpa using on
  have marked : ∀ notInDc, (some { e with notInDc }).map core =
      (s.dir (cfg.lineOf lqe.address)).map core := by simp [he, core]
  have off : ∀ {calls : List (Call C)}, cfg.hasDirectoryCache = false → calls = [] := fun h => by
    cases on.symm.trans h
  split
  · rename_i listed
    split
    · rename_i ht
      exact .informed (some { e with notInDc := false }) on ht (marked false) rfl rfl
    · rename_i ht
      split
      · rename_i away
        refine retry_decided ⟨on, through, e, he, ?_⟩ ?_ ?_ _
        · rw [if_pos listed]
          exact ⟨ht, away⟩
        · rfl
        · rfl
      · rename_i here
        refine passed _ ?_ rfl rfl
        rintro ⟨-, -, e', he', held⟩
        cases he.symm.trans he'
        rw [if_pos listed] at held
        exact here held.2
  · rename_i unlisted
    have goes : ((s.dirCache (cfg.lineOf lqe.address % cfg.numSets)).length = cfg.numWays →
        (scanVictim s.dir (s.dirCache (cfg.lineOf lqe.address % cfg.numSets))).2 ≠ none) →
        ¬ Deferred cfg s lqe := by
      rintro room ⟨-, -, _, -, held⟩
      rw [if_neg unlisted] at held
      exact room held.1 held.2
    split
    · rename_i full
      split
      · rename_i dir scanned
        obtain ⟨rfl, -⟩ := (h on).scan _ scanned
        refine retry_decided ⟨on, through, e, he, ?_⟩ ?_ ?_ _
        · rw [if_neg unlisted]
          exact ⟨full, by rw [scanned]⟩
        · rfl
        · rfl
      · rename_i dir v scanned
        obtain ⟨rfl, -⟩ := (h on).scan _ scanned
        refine ⟨rfl, goes fun _ => by simp [scanned], rfl, fun call hcall => ?_, off,
          some { e with notInDc := true }, marked true, rfl⟩
        rcases List.mem_pair.mp hcall with rfl | rfl <;> exact information_info (by decide)
    · rename_i room
      refine ⟨rfl, goes fun full => absurd full room, rfl, fun call hcall => ?_, off,
        some { e with notInDc := true }, marked true, rfl⟩
      rw [List.mem_singleton.mp hcall]
      exact information_info (by decide)

theorem processReply_replied (h : cfg.hasDirectoryCache = true → CacheInv cfg s) :
    Meets (ReplyStops cfg t s lqe) (Replied cfg t s lqe) (processReply cfg t s lqe) := by
  have plain : ¬ Deferred cfg s lqe →
      Meets (ReplyStops cfg t s lqe) (Replied cfg t s lqe) (serveReply cfg t s lqe []) :=
        fun goes =>
    serveReply_replied (Function.update_eq_self _ _).symm rfl rfl goes (fun _ h => by cases h)
      fun _ => rfl
  unfold processReply
  split
  · rename_i he
    refine plain ?_
    rintro ⟨-, -, e, he', -⟩
    cases he.symm.trans he'
  · rename_i e he
    split
    · rename_i through
      have decided := cacheOnReply_decided (t := t) h he through
      split
      · rename_i s' effects hs
        rw [hs] at decided
        exact decided
      · rename_i s₁ lqe' calls deleted hs
        rw [hs] at decided
        obtain ⟨rfl, goes, hrep, aside, off, found, same, hd⟩ := decided
        exact serveReply_replied hd hrep same goes aside off
    · rename_i straight
      exact plain fun deferred => straight deferred.2.1

/-- A handler takes a request, the directory cache refuses it or holds it, or a request that is held
goes on once its directory information has come. -/
inductive Requested (cfg : DirConfig C) (t : Nat) (s : Directory C) (lqe : Lqe C) :
    Directory C × Effects C → Prop
  | served {s' o} (st : DirStats) (calls : List (Call C)) :
      (lqe.type = .rdDirInfoReq → s.dir (cfg.lineOf lqe.address) = none) →
      (∀ e, s.dir (cfg.lineOf lqe.address) = some e → cfg.hasDirectoryCache = true →
        e.pending = none) →
      request cfg t (s.dir (cfg.lineOf lqe.address)) lqe st = .ok o →
      (∀ call ∈ calls, Aside cfg (cfg.lineOf lqe.address) call) →
      (cfg.hasDirectoryCache = false → calls = []) →
      s'.dir = Function.update s.dir (cfg.lineOf lqe.address) o.entry → s'.repEvent = s.repEvent →
      Requested cfg t s lqe (s', { calls := calls ++ o.calls, deleted := o.deleted })
  | refused {s' call} : (lqe.type = .rdDirInfoReq → s.dir (cfg.lineOf lqe.address) = none) →
      addEventToULpp cfg t { lqe with type := .nack } false = .ok call → s'.dir = s.dir →
      s'.repEvent = s.repEvent → Requested cfg t s lqe (s', { calls := [call] })
  | held {s'} (e : DirEntry C) (calls : List (Call C)) : cfg.hasDirectoryCache = true →
      lqe.type ≠ .rdDirInfoReq → s.dir (cfg.lineOf lqe.address) = some e → pinned e = false →
      (∀ call ∈ calls, Aside cfg (cfg.lineOf lqe.address) call) →
      s'.dir = Function.update s.dir (cfg.lineOf lqe.address)
        (some { e with pending := some lqe, notInDc := true }) →
      s'.repEvent = s.repEvent → Requested cfg t s lqe (s', { calls })
  | resumed {s' o} (e : DirEntry C) (p : Lqe C) (st : DirStats) : cfg.hasDirectoryCache = true →
      lqe.type = .rdDirInfoReq → s.dir (cfg.lineOf lqe.address) = some e → e.pending = some p →
      request cfg t (some { e with pending := none, notInDc := false }) p st = .ok o →
      s'.dir = Function.update s.dir (cfg.lineOf lqe.address) o.entry → s'.repEvent = s.repEvent →
      Requested cfg t s lqe (s', { calls := o.calls, deleted := [lqe] ++ o.deleted })

def Admitted (cfg : DirConfig C) (t : Nat) (s : Directory C) (lqe : Lqe C) : Stage C → Prop
  | .stop s' effects => Requested cfg t s lqe (s', effects)
  | .go s₁ lqe' calls deleted => s₁.repEvent = s.repEvent ∧
      (lqe' = lqe ∧ deleted = [] ∧ s₁.dir = s.dir ∧
        (lqe.type = .rdDirInfoReq → s.dir (cfg.lineOf lqe.address) = none) ∧
        (∀ e, s.dir (cfg.lineOf lqe.address) = some e → cfg.hasDirectoryCache = true →
          e.pending = none) ∧
        (∀ call ∈ calls, Aside cfg (cfg.lineOf lqe.address) call) ∧
        (cfg.hasDirectoryCache = false → calls = []) ∨
      cfg.hasDirectoryCache = true ∧ lqe.type = .rdDirInfoReq ∧ calls = [] ∧ deleted = [lqe] ∧
        ∃ e, s.dir (cfg.lineOf lqe.address) = some e ∧ e.pending = some lqe' ∧
          s₁.dir = Function.update s.dir (cfg.lineOf lqe.address)
            (some { e with pending := none, notInDc := false }))

theorem refuse_admitted {s₁ : Directory C} (hd : s₁.dir = s.dir) (hrep : s₁.repEvent = s.repEvent)
    (hinfo : lqe.type = .rdDirInfoReq → s.dir (cfg.lineOf lqe.address) = none) :
    Meets (fun _ => True) (Admitted cfg t s lqe) (refuse cfg t s₁ lqe) := by
  unfold refuse
  cases h : addEventToULpp cfg t { lqe with type := .nack } false with
  | error a => trivial
  | ok call => exact .refused hinfo h hd hrep

theorem cacheOnNew_admitted (h : cfg.hasDirectoryCache = true → CacheInv cfg s)
    (he : s.dir (cfg.lineOf lqe.address) = none) :
    Meets (fun _ => True) (Admitted cfg t s lqe) (cacheOnNew cfg t s lqe) := by
  have passed : ∀ (s₁ : Directory C) (calls : List (Call C)), s₁.dir = s.dir →
    s₁.repEvent = s.repEvent →
      (∀ call ∈ calls, Aside cfg (cfg.lineOf lqe.address) call) →
      (cfg.hasDirectoryCache = false → calls = []) →
      Admitted cfg t s lqe (.go s₁ lqe calls []) := fun s₁ calls hd hrep aside off =>
    ⟨hrep, .inl ⟨rfl, rfl, hd, fun _ => he, fun e he' => (by cases he.symm.trans he'), aside, off⟩⟩
  unfold cacheOnNew
  dsimp only
  split
  · exact passed s [] rfl rfl (fun _ h => by cases h) fun _ => rfl
  rename_i on
  have on : cfg.hasDirectoryCache = true := by simpa using on
  split
  · split
    · rename_i dir scanned
      obtain ⟨rfl, -⟩ := (h on).scan _ scanned
      exact refuse_admitted rfl rfl fun _ => he
    · rename_i dir v scanned
      obtain ⟨rfl, -⟩ := (h on).scan _ scanned
      refine passed _ _ rfl rfl (fun call hcall => ?_) fun off => by cases on.symm.trans off
      rw [List.mem_singleton.mp hcall]
      exact aside_info (by decide)
  · exact passed _ [] rfl rfl (fun _ h => by cases h) fun _ => rfl

theorem cacheOnFound_admitted (h : cfg.hasDirectoryCache = true → CacheInv cfg s) {e : DirEntry C}
    (he : s.dir (cfg.lineOf lqe.address) = some e)
    (hoff : cfg.hasDirectoryCache = false → lqe.type ≠ .rdDirInfoReq) :
    Meets (fun _ => True) (Admitted cfg t s lqe) (cacheOnFound cfg t s e lqe) := by
  unfold cacheOnFound
  dsimp only
  split
  · rename_i off
    refine ⟨rfl, .inl ⟨rfl, rfl, rfl, fun ht => absurd ht (hoff off), fun _ _ on => ?_,
      fun _ h => (by cases h), fun _ => rfl⟩⟩
    cases on.symm.trans off
  rename_i on
  have on : cfg.hasDirectoryCache = true := by simpa using on
  split
  · split
    · rename_i ht
      split
      · trivial
      · rename_i p hp
        exact ⟨rfl, .inr ⟨on, ht, rfl, rfl, e, he, hp, rfl⟩⟩
    · rename_i ht
      split
      · exact refuse_admitted rfl rfl fun h => absurd h ht
      · rename_i hp
        refine ⟨rfl, .inl ⟨rfl, rfl, rfl, fun h => absurd h ht, fun e' he' _ => ?_,
          fun _ h => (by cases h), fun _ => rfl⟩⟩
        cases he.symm.trans he'
        exact not_not.mp hp
  · rename_i absent
    have free : pinned e = false := by
      by_contra hp
      exact absent ((h on).kept _ e trivial he (by simpa using hp))
    split
    · trivial
    · rename_i ht
      split
      · split
        · rename_i dir scanned
          obtain ⟨rfl, -⟩ := (h on).scan _ scanned
          exact refuse_admitted rfl rfl fun h => absurd h ht
        · rename_i dir v scanned
          obtain ⟨rfl, -⟩ := (h on).scan _ scanned
          refine .held e _ on ht he free (fun call hcall => ?_) rfl rfl
          rcases List.mem_pair.mp hcall with rfl | rfl <;> exact aside_info (by decide)
      · refine .held e _ on ht he free (fun call hcall => ?_) rfl rfl
        rw [List.mem_singleton.mp hcall]
        exact aside_info (by decide)

theorem processRequest_requested (h : cfg.hasDirectoryCache = true → CacheInv cfg s)
    (hoff : cfg.hasDirectoryCache = false → lqe.type ≠ .rdDirInfoReq) :
    Meets (fun _ => True) (Requested cfg t s lqe) (processRequest cfg t s lqe) := by
  have admitted : Meets (fun _ => True) (Admitted cfg t s lqe) (cacheOnRequest cfg t s lqe) := by
    unfold cacheOnRequest
    split
    · rename_i he
      exact cacheOnNew_admitted h he
    · rename_i e he
      exact cacheOnFound_admitted h he hoff
  unfold processRequest
  rw [meets_bind]
  refine admitted.mono (fun stage hs => ?_) fun _ h => h
  cases stage with
  | stop s' effects => exact hs
  | go s₁ lqe' calls deleted =>
    obtain ⟨hrep, ⟨rfl, rfl, hd, hinfo, idle, aside, off⟩ | ⟨on, ht, rfl, rfl, e, he, hp, hd⟩⟩ := hs
    · refine serveRequest_meets ?_
      rw [hd]
      cases hr : request cfg t (s.dir (cfg.lineOf lqe'.address)) lqe' s₁.stats with
      | error a => trivial
      | ok o =>
        refine .served s₁.stats calls hinfo idle hr aside off ?_ ?_
        · rw [apply_dir, hd]
        · rw [apply_repEvent, hrep]
    · have line : cfg.lineOf lqe'.address = cfg.lineOf lqe.address :=
        (h on).aimed _ e lqe' trivial he hp
      refine serveRequest_meets ?_
      rw [hd, line, Function.update_self]
      cases hr : request cfg t (some { e with pending := none, notInDc := false }) lqe'
        s₁.stats with
      | error a => trivial
      | ok o =>
        refine .resumed e lqe' s₁.stats on ht he hp hr ?_ ?_
        · rw [apply_dir, hd, Function.update_idem]
        · rw [apply_repEvent, hrep]

end Directory

end McSim
