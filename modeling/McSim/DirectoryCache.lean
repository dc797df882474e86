import McSim.Directory

/-! The directory cache.
It holds keys of `dir`, and a key that is not in it may only have an entry that nothing waits
for. -/

namespace McSim

def isInfo : EventType → Bool
  | .rdDirInfoReq | .rdDirInfoRep => true
  | _ => false

namespace Directory

variable {C : Type} {cfg : DirConfig C} {s s' : Directory C} {t line : Nat} {e : DirEntry C}
  {lqe : Lqe C} {P Q : Nat → Prop}

open Contract

def pinned (e : DirEntry C) : Bool := transient e.type || e.pending.isSome || e.notInDc

/-- A list of `dir_cache` has at most `num_ways` keys of its set, each once. Where `P` holds of a
key, it has an entry if it is in its list, and is in its list if the entry is pinned; a request
that is held is held at its own line. -/
structure InStep (cfg : DirConfig C) (P : Nat → Prop) (s : Directory C) : Prop where
  bounded : ∀ set, (s.dirCache set).length ≤ cfg.numWays
  nodup : ∀ set, (s.dirCache set).Nodup
  home : ∀ set, ∀ key ∈ s.dirCache set, key % cfg.numSets = set
  known : ∀ set, ∀ key ∈ s.dirCache set, P key → (s.dir key).isSome
  kept : ∀ key e, P key → s.dir key = some e → pinned e → key ∈ s.dirCache (key % cfg.numSets)
  aimed : ∀ key e r, P key → s.dir key = some e → e.pending = some r → cfg.lineOf r.address = key

def CacheInv (cfg : DirConfig C) (s : Directory C) : Prop := InStep cfg (fun _ => True) s

theorem InStep.mono (h : InStep cfg P s) (hPQ : ∀ key, Q key → P key) : InStep cfg Q s where
  bounded := h.bounded
  nodup := h.nodup
  home := h.home
  known set key hk hQ := h.known set key hk (hPQ key hQ)
  kept key e hQ := h.kept key e (hPQ key hQ)
  aimed key e r hQ := h.aimed key e r (hPQ key hQ)

theorem CacheInv.apart (h : CacheInv cfg s) (line : Nat) : InStep cfg (· ≠ line) s :=
  h.mono fun _ _ => trivial

theorem InStep.joined (h : InStep cfg (· ≠ line) s)
    (known : line ∈ s.dirCache (line % cfg.numSets) → (s.dir line).isSome)
    (kept : ∀ e, s.dir line = some e → pinned e → line ∈ s.dirCache (line % cfg.numSets))
    (aimed : ∀ e r, s.dir line = some e → e.pending = some r → cfg.lineOf r.address = line) :
    CacheInv cfg s where
  bounded := h.bounded
  nodup := h.nodup
  home := h.home
  known set key hk _ := by
    by_cases he : key = line
    · subst he
      exact known (h.home set key hk ▸ hk)
    · exact h.known set key hk he
  kept key e _ hd hp := by
    by_cases he : key = line
    · subst he
      exact kept e hd hp
    · exact h.kept key e he hd hp
  aimed key e r _ hd hp := by
    by_cases he : key = line
    · subst he
      exact aimed e r hd hp
    · exact h.aimed key e r he hd hp

theorem InStep.congr (h : InStep cfg P s) (hd : s'.dir = s.dir) (hc : s'.dirCache = s.dirCache) :
    InStep cfg P s' := by
  constructor
  · rw [hc]
    exact h.bounded
  · rw [hc]
    exact h.nodup
  · rw [hc]
    exact h.home
  · rw [hc, hd]
    exact h.known
  · rw [hc, hd]
    exact h.kept
  · rw [hd]
    exact h.aimed

theorem cacheInv_init : CacheInv cfg ({} : Directory C) where
  bounded _ := Nat.zero_le _
  nodup _ := List.nodup_nil
  home _ _ hk := absurd hk List.not_mem_nil
  known _ _ hk := absurd hk List.not_mem_nil
  kept _ _ _ hd := by cases hd
  aimed _ _ _ _ hd := by cases hd

theorem scanVictim_spec {dir : Nat → Option (DirEntry C)} {keys : List Nat}
    (known : ∀ key ∈ keys, (dir key).isSome) :
    (scanVictim dir keys).1 = dir ∧
      ∀ v, (scanVictim dir keys).2 = some v → v ∈ keys ∧ ∃ e, dir v = some e ∧
        pinned e = false := by
  induction keys with
  | nil => exact ⟨rfl, fun v hv => by cases hv⟩
  | cons key keys ih =>
    obtain ⟨e, he⟩ := Option.isSome_iff_exists.mp (known key List.mem_cons_self)
    have same : Function.update dir key (some e) = dir := by
      rw [← he]
      exact Function.update_eq_self key dir
    obtain ⟨dirEq, victim⟩ := ih fun k hk => known k (List.mem_cons_of_mem _ hk)
    simp only [scanVictim, he, Option.getD_some, same]
    split
    · exact ⟨dirEq, fun v hv => ⟨List.mem_cons_of_mem _ (victim v hv).1, (victim v hv).2⟩⟩
    · rename_i free
      refine ⟨rfl, fun v hv => ?_⟩
      cases hv
      exact ⟨List.mem_cons_self, e, he, Bool.not_eq_true _ ▸ free⟩

@[simp] theorem setCache_dir (set : Nat) (keys : List Nat) :
    (s.setCache set keys).dir = s.dir := rfl

@[simp] theorem setEntry_dirCache (key : Nat) (e : Option (DirEntry C)) :
    (s.setEntry key e).dirCache = s.dirCache := rfl

@[simp] theorem setCache_self (set : Nat) (keys : List Nat) :
    (s.setCache set keys).dirCache set = keys := Function.update_self _ _ _

theorem setCache_of_ne {set set' : Nat} (keys : List Nat) (h : set' ≠ set) :
    (s.setCache set keys).dirCache set' = s.dirCache set' := Function.update_of_ne h _ _

@[simp] theorem setEntry_self (key : Nat) (e : Option (DirEntry C)) :
    (s.setEntry key e).dir key = e :=
  Function.update_self _ _ _

theorem setEntry_of_ne {key key' : Nat} (e : Option (DirEntry C)) (h : key' ≠ key) :
    (s.setEntry key e).dir key' = s.dir key' := Function.update_of_ne h _ _

theorem InStep.setEntry (h : InStep cfg (· ≠ line) s) (e : Option (DirEntry C)) :
    InStep cfg (· ≠ line) (s.setEntry line e) where
  bounded := h.bounded
  nodup := h.nodup
  home := h.home
  known set key hk hne := by
    rw [setEntry_of_ne e hne]
    exact h.known set key hk hne
  kept key e' hne hd := by
    rw [setEntry_of_ne e hne] at hd
    exact h.kept key e' hne hd
  aimed key e' r hne hd := by
    rw [setEntry_of_ne e hne] at hd
    exact h.aimed key e' r hne hd

theorem InStep.setCache (h : InStep cfg (· ≠ line) s) (keys : List Nat)
    (bounded : keys.length ≤ cfg.numWays) (nodup : keys.Nodup)
    (old : ∀ key ∈ keys, key = line ∨ key ∈ s.dirCache (line % cfg.numSets))
    (kept : ∀ key ∈ s.dirCache (line % cfg.numSets), key ≠ line →
      (∀ e, s.dir key = some e → pinned e) → key ∈ keys) :
    InStep cfg (· ≠ line) (s.setCache (line % cfg.numSets) keys) where
  bounded set := by
    by_cases he : set = line % cfg.numSets
    · subst he
      rw [setCache_self]
      exact bounded
    · rw [setCache_of_ne keys he]
      exact h.bounded set
  nodup set := by
    by_cases he : set = line % cfg.numSets
    · subst he
      rw [setCache_self]
      exact nodup
    · rw [setCache_of_ne keys he]
      exact h.nodup set
  home set key hk := by
    by_cases he : set = line % cfg.numSets
    · subst he
      rw [setCache_self] at hk
      rcases old key hk with rfl | hk
      · rfl
      · exact h.home _ key hk
    · rw [setCache_of_ne keys he] at hk
      exact h.home set key hk
  known set key hk hne := by
    by_cases he : set = line % cfg.numSets
    · subst he
      rw [setCache_self] at hk
      exact h.known _ key ((old key hk).resolve_left hne) hne
    · rw [setCache_of_ne keys he] at hk
      exact h.known set key hk hne
  kept key e hne hd hp := by
    have mem := h.kept key e hne hd hp
    by_cases he : key % cfg.numSets = line % cfg.numSets
    · rw [he, setCache_self]
      rw [he] at mem
      exact kept key mem hne fun e' hd' => by
        cases hd.symm.trans hd'
        exact hp
    · rw [setCache_of_ne keys he]
      exact mem
  aimed := h.aimed

/-- A handler pins no entry that was not pinned, and holds no request but one that was held. -/
def Loosens (e : DirEntry C) (o : Outcome C) : Prop :=
  ∀ e', o.entry = some e' → (pinned e' → pinned e) ∧ ∀ r, e'.pending = some r → e.pending = some r

theorem loosens_none {o : Outcome C} (h : o.entry = none) : Loosens e o := fun e' he => by
  cases h.symm.trans he

theorem loosens_self {o : Outcome C} (h : o.entry = some e) : Loosens e o := fun e' he => by
  cases h.symm.trans he
  exact ⟨id, fun _ => id⟩

theorem loosens_transient {e' : DirEntry C} {o : Outcome C} (h : o.entry = some e')
    (ht : transient e.type = true) (hp : ∀ r, e'.pending = some r → e.pending = some r) :
    Loosens e o := fun e'' he => by
  cases h.symm.trans he
  refine ⟨fun _ => ?_, hp⟩
  simp [pinned, ht]

section Handlers
variable [LinearOrder C] {st : DirStats}

theorem repEvict_loosens : Meets (fun _ => True) (Loosens e) (repEvict cfg t e lqe st) := by
  unfold repEvict
  dsimp only
  split
  · split
    · trivial
    · refine Meets.after fun top => ?_
      split
      · exact loosens_self rfl
      · exact loosens_none rfl
  · split
    · trivial
    · refine Meets.after fun top => ?_
      split
      · exact loosens_self rfl
      · split
        · exact loosens_none rfl
        · intro e' he
          cases he
          exact ⟨id, fun _ => id⟩
  · refine Meets.after fun top e' he => ?_
    cases he
    exact ⟨id, fun _ => id⟩
  · exact loosens_self rfl
  · refine Meets.after fun top => ?_
    split
    · exact loosens_none rfl
    · intro e' he
      cases he
      exact ⟨id, fun _ => id⟩

omit [LinearOrder C] in
theorem repEToX_loosens : Meets (fun _ => True) (Loosens e) (repEToX (some e) lqe st) := by
  unfold repEToX
  dsimp only
  split
  · trivial
  · rename_i ht
    split
    · exact loosens_none rfl
    · refine loosens_transient rfl ?_ fun r hr => by cases hr
      rw [not_not.mp ht]
      rfl

theorem resume_loosens {e₀ : DirEntry C} (ht : transient e₀.type = true) (pending : Lqe C) :
    Meets (fun _ => True) (Loosens e₀) (resume cfg t e pending lqe st) := by
  refine Meets.after fun top => ?_
  dsimp only
  split
  · exact Meets.after fun grant => loosens_transient rfl ht fun r hr => by cases hr
  · exact loosens_transient rfl ht fun r hr => by cases hr

theorem repInvalidate_loosens :
    Meets (fun _ => True) (Loosens e) (repInvalidate cfg t (some e) lqe st) := by
  unfold repInvalidate
  dsimp only
  split
  · trivial
  · rename_i ht
    have transient : transient e.type = true := by
      rw [not_not.mp ht]
      rfl
    refine Meets.after fun lqe => Meets.after fun top => ?_
    split
    · trivial
    · rename_i pending hp
      split
      · exact resume_loosens transient pending
      · exact loosens_transient rfl transient fun r hr => hr

theorem repNd_loosens : Meets (fun _ => True) (Loosens e) (repNd cfg t (some e) lqe st) := by
  unfold repNd
  dsimp only
  split
  · trivial
  · rename_i ht
    have transient : transient e.type = true := by
      by_cases h : e.type = .trToS
      · rw [h]
        rfl
      · rw [not_not.mp fun hm => ht ⟨h, hm⟩]
        rfl
    split
    · trivial
    · refine Meets.after fun nack => ?_
      split
      · exact loosens_none rfl
      · exact loosens_transient rfl transient fun r hr => by cases hr

theorem repData_loosens : Meets (fun _ => True) (Loosens e) (repData cfg t (some e) lqe st) := by
  unfold repData
  dsimp only
  split
  · trivial
  · rename_i ht
    have transient : transient e.type = true := by
      by_cases h : e.type = .mToS
      · rw [h]
        rfl
      · rw [not_not.mp fun hm => ht ⟨h, hm⟩]
        rfl
    split
    · trivial
    · exact Meets.after fun top => Meets.after fun grant =>
        loosens_transient rfl transient fun r hr => by cases hr

theorem repFromMc_loosens :
    Meets (fun _ => True) (Loosens e) (repFromMc cfg t (some e) lqe st) := by
  refine Meets.after fun lqe => ?_
  dsimp only
  split
  · exact Meets.after fun _ => loosens_self rfl
  · rename_i e' he
    obtain ⟨same, hp⟩ := Option.filter_eq_some_iff.mp he
    cases same
    have transient : transient e.type = true := by
      rcases (decide_eq_true_iff.mp hp).2 with h | h <;> rw [h] <;> rfl
    split
    · exact Meets.after fun _ => loosens_transient rfl transient fun r hr => hr
    · exact Meets.after fun _ => loosens_transient rfl transient fun r hr => hr

theorem reply_loosens : Meets (fun _ => True) (Loosens e) (reply cfg t (some e) lqe st) := by
  unfold reply
  split
  · exact repEvict_loosens
  · exact repEvict_loosens
  · exact repEToX_loosens
  · exact repEToX_loosens
  · exact repInvalidate_loosens
  · exact repInvalidate_loosens
  · exact repNd_loosens
  · exact repNd_loosens
  · exact repNd_loosens
  · exact repData_loosens
  · exact repData_loosens
  · exact repData_loosens
  · exact repFromMc_loosens

theorem reply_none :
    Meets (fun _ => True) (fun o => o.entry = none) (reply cfg t none lqe st) := by
  unfold reply
  split <;> try exact rfl
  · trivial
  · trivial
  · trivial
  · trivial
  · trivial
  · trivial
  · exact Meets.after fun lqe => Meets.after fun _ => rfl

/-- What a request leaves behind is an entry, and what that holds is the request, or was held. -/
def Holds (found : Option (DirEntry C)) (lqe : Lqe C) (o : Outcome C) : Prop :=
  ∃ e', o.entry = some e' ∧
    ∀ r, e'.pending = some r → r = lqe ∨ ∃ e, found = some e ∧ e.pending = some r

omit [LinearOrder C] in
theorem holds_same {e' : DirEntry C} {o : Outcome C} (h : o.entry = some e')
    (hp : e'.pending = e.pending) : Holds (some e) lqe o :=
  ⟨e', h, fun _ hr => .inr ⟨e, rfl, hp ▸ hr⟩⟩

omit [LinearOrder C] in
theorem holds_held {e' : DirEntry C} {o : Outcome C} {found : Option (DirEntry C)}
    (h : o.entry = some e') (hp : e'.pending = some lqe) : Holds found lqe o :=
  ⟨e', h, fun _ hr => .inl (Option.some.inj (hr.symm.trans hp))⟩

theorem nack_holds : Meets (fun _ => True) (Holds (some e) lqe) (nack cfg t e lqe st) :=
  Meets.after fun _ => holds_same rfl rfl

theorem reqRead_holds : Meets (fun _ => True) (Holds (some e) lqe) (reqRead cfg t e lqe st) := by
  refine Meets.after fun top => ?_
  split
  · exact nack_holds
  · split
    · split
      · trivial
      · split
        · trivial
        · split
          · exact holds_held rfl rfl
          · exact holds_held rfl rfl
    · split
      · split
        · trivial
        · exact holds_held rfl rfl
      · trivial

theorem reqWrite_holds : Meets (fun _ => True) (Holds (some e) lqe) (reqWrite cfg t e lqe st) := by
  unfold reqWrite
  split
  · split
    · trivial
    · refine Meets.after fun top => ?_
      split
      · exact Meets.after fun _ => holds_same rfl rfl
      · split
        · trivial
        · exact holds_held rfl rfl
  · split
    · trivial
    · exact holds_held rfl rfl
  · split
    · trivial
    · refine Meets.after fun top => ?_
      split
      · exact Meets.after fun _ => holds_same rfl rfl
      · split
        · trivial
        · exact holds_held rfl rfl
  · trivial

theorem request_holds (found : Option (DirEntry C)) :
    Meets (fun _ => True) (Holds found lqe) (request cfg t found lqe st) := by
  unfold request
  split
  · exact Meets.after fun top => ⟨_, rfl, fun r hr => by cases hr⟩
  · split
    · exact nack_holds
    · split
      · exact reqRead_holds
      · split
        · exact reqWrite_holds
        · trivial

end Handlers

theorem InStep.apply (h : InStep cfg (· ≠ line) s) (on : cfg.hasDirectoryCache = true)
    {o : Outcome C}
    (kept : ∀ e, o.entry = some e → pinned e → line ∈ s.dirCache (line % cfg.numSets))
    (aimed : ∀ e r, o.entry = some e → e.pending = some r → cfg.lineOf r.address = line) :
    CacheInv cfg (s.apply cfg line o) := by
  have entered : InStep cfg (· ≠ line) { s.setEntry line o.entry with stats := o.stats } :=
    (h.setEntry o.entry).congr rfl rfl
  unfold Directory.apply
  dsimp only
  cases ho : o.entry with
  | some e =>
    rw [ho] at entered
    rw [if_neg (by simp)]
    refine entered.joined (fun _ => ?_) (fun e' he hp => ?_) fun e' r he hr => ?_
    · exact congrArg Option.isSome (setEntry_self (s := s) line (some e))
    · cases (setEntry_self (s := s) line (some e)).symm.trans he
      exact kept e ho hp
    · cases (setEntry_self (s := s) line (some e)).symm.trans he
      exact aimed e r ho hr
  | none =>
    rw [ho] at entered
    rw [if_pos ⟨rfl, on⟩]
    have gone := entered.setCache ((s.dirCache (line % cfg.numSets)).erase line)
      (List.length_erase_le.trans (h.bounded _)) ((h.nodup _).erase line)
      (fun key hk => .inr (List.mem_of_mem_erase hk))
      fun key hk hne _ => (List.mem_erase_of_ne hne).mpr hk
    have empty : (s.setEntry line none).dir line = none := setEntry_self line none
    refine gone.joined (fun hk => ?_) (fun e he => ?_) fun e _ he => ?_
    · rw [setCache_self] at hk
      exact absurd hk (h.nodup _).not_mem_erase
    · cases empty.symm.trans he
    · cases empty.symm.trans he

theorem length_front {keys : List Nat} {v : Nat} (hv : v ∈ keys) (line : Nat) :
    (line :: keys.erase v).length = keys.length :=
  (List.perm_cons_erase hv).length_eq.symm

theorem CacheInv.front (h : CacheInv cfg s) (hl : line ∈ s.dirCache (line % cfg.numSets)) :
    CacheInv cfg (s.setCache (line % cfg.numSets)
      (line :: (s.dirCache (line % cfg.numSets)).erase line)) := by
  have moved := (h.apart line).setCache
    (line :: (s.dirCache (line % cfg.numSets)).erase line)
    (by rw [length_front hl]; exact h.bounded _)
    (List.nodup_cons.mpr ⟨(h.nodup _).not_mem_erase, (h.nodup _).erase line⟩)
    (fun key hk => (List.mem_cons.mp hk).imp_right List.mem_of_mem_erase)
    fun key hk hne _ => List.mem_cons_of_mem _ ((List.mem_erase_of_ne hne).mpr hk)
  refine moved.joined (fun _ => h.known _ line hl trivial) (fun e _ _ => ?_) fun e r => ?_
  · rw [setCache_self]
    exact List.mem_cons_self
  · exact h.aimed line e r trivial

theorem CacheInv.displace (h : CacheInv cfg s) (hl : line ∉ s.dirCache (line % cfg.numSets))
    {v : Nat} (hv : v ∈ s.dirCache (line % cfg.numSets)) (he : s.dir v = some e)
    (hp : pinned e = false) :
    InStep cfg (· ≠ line)
      (s.setCache (line % cfg.numSets) (line :: (s.dirCache (line % cfg.numSets)).erase v)) := by
  refine (h.apart line).setCache _ ?_ ?_ ?_ ?_
  · rw [length_front hv]
    exact h.bounded _
  · exact List.nodup_cons.mpr ⟨fun hm => hl (List.mem_of_mem_erase hm), (h.nodup _).erase v⟩
  · exact fun key hk => (List.mem_cons.mp hk).imp_right List.mem_of_mem_erase
  · intro key hk hne pinned
    refine List.mem_cons_of_mem _ ((List.mem_erase_of_ne ?_).mpr hk)
    rintro rfl
    exact absurd (pinned e he) (by simp [hp])

theorem CacheInv.fill (h : CacheInv cfg s) (hl : line ∉ s.dirCache (line % cfg.numSets))
    (room : (s.dirCache (line % cfg.numSets)).length ≠ cfg.numWays) :
    InStep cfg (· ≠ line)
      (s.setCache (line % cfg.numSets) (line :: s.dirCache (line % cfg.numSets))) := by
  refine (h.apart line).setCache _ ?_ ?_ ?_ ?_
  · exact Nat.succ_le_of_lt (lt_of_le_of_ne (h.bounded _) room)
  · exact List.nodup_cons.mpr ⟨hl, h.nodup _⟩
  · exact fun key hk => List.mem_cons.mp hk
  · exact fun key hk _ _ => List.mem_cons_of_mem _ hk

structure Ready (cfg : DirConfig C) (line : Nat) (s : Directory C) : Prop where
  others : InStep cfg (· ≠ line) s
  listed : line ∈ s.dirCache (line % cfg.numSets)
  aimed : ∀ e r, s.dir line = some e → e.pending = some r → cfg.lineOf r.address = line

theorem Ready.setEntry (h : Ready cfg line s)
    (hp : ∀ r, e.pending = some r → cfg.lineOf r.address = line) :
    Ready cfg line (s.setEntry line (some e)) where
  others := h.others.setEntry (some e)
  listed := h.listed
  aimed e' r he hr := by
    cases (setEntry_self line (some e)).symm.trans he
    exact hp r hr

theorem Ready.congr (h : Ready cfg line s) (hd : s'.dir = s.dir) (hc : s'.dirCache = s.dirCache) :
    Ready cfg line s' where
  others := h.others.congr hd hc
  listed := by
    rw [hc]
    exact h.listed
  aimed := by
    rw [hd]
    exact h.aimed

theorem Ready.inv (h : Ready cfg line s) (hd : (s.dir line).isSome) : CacheInv cfg s :=
  h.others.joined (fun _ => hd) (fun _ _ _ => h.listed) h.aimed

theorem CacheInv.ready (h : CacheInv cfg s) {keys : List Nat}
    (others : InStep cfg (· ≠ line) (s.setCache (line % cfg.numSets) (line :: keys))) :
    Ready cfg line (s.setCache (line % cfg.numSets) (line :: keys)) where
  others := others
  listed := by
    rw [setCache_self]
    exact List.mem_cons_self
  aimed e r := h.aimed line e r trivial

def Stage.Sound (cfg : DirConfig C) (line : Nat) : Stage C → Prop
  | .stop s _ => CacheInv cfg s
  | .go s lqe _ _ => Ready cfg line s ∧ cfg.lineOf lqe.address = line

theorem CacheInv.scan (h : CacheInv cfg s) (set : Nat) {dir : Nat → Option (DirEntry C)}
    {victim : Option Nat} (hs : scanVictim s.dir (s.dirCache set) = (dir, victim)) :
    dir = s.dir ∧ ∀ v, victim = some v →
      v ∈ s.dirCache set ∧ ∃ e, s.dir v = some e ∧ pinned e = false := by
  have known : ∀ key ∈ s.dirCache set, (s.dir key).isSome :=
    fun key hk => h.known set key hk trivial
  have spec := scanVictim_spec known
  rw [hs] at spec
  exact spec

theorem retry_sound (h : CacheInv cfg s) (t : Nat) : (retry cfg s t lqe).Sound cfg line := by
  refine h.congr ?_ ?_
  · unfold addRepEvent addReqEvent
    split <;> rfl
  · unfold addRepEvent addReqEvent
    split <;> rfl

theorem cacheOnReply_sound (h : CacheInv cfg s) (on : cfg.hasDirectoryCache = true)
    (he : s.dir (cfg.lineOf lqe.address) = some e) :
    (cacheOnReply cfg t s e lqe).Sound cfg (cfg.lineOf lqe.address) := by
  have aimed : ∀ r, e.pending = some r → cfg.lineOf r.address = cfg.lineOf lqe.address :=
    fun r => h.aimed _ e r trivial he
  unfold cacheOnReply
  dsimp only
  rw [if_neg (by simp [on])]
  split
  · rename_i listed
    have front := h.front listed
    have ready := h.ready (front.apart _)
    split
    · have arrived := ready.setEntry (e := { e with notInDc := false }) aimed
      exact arrived.inv (congrArg Option.isSome (setEntry_self _ _))
    · split
      · exact retry_sound front _
      · exact ⟨ready, rfl⟩
  · rename_i absent
    split
    · split
      · rename_i dir scanned
        obtain ⟨rfl, -⟩ := h.scan _ scanned
        refine retry_sound ?_ _
        exact h.congr rfl rfl
      · rename_i dir v scanned
        obtain ⟨rfl, victim⟩ := h.scan _ scanned
        obtain ⟨hv, e', he', free⟩ := victim v rfl
        have ready := (h.ready (h.displace absent hv he' free)).setEntry
          (e := { e with notInDc := true }) aimed
        exact ⟨ready.congr rfl rfl, rfl⟩
    · rename_i room
      have ready := (h.ready (h.fill absent room)).setEntry (e := { e with notInDc := true }) aimed
      exact ⟨ready.congr rfl rfl, rfl⟩

section Process
variable [LinearOrder C]

theorem refuse_sound (h : CacheInv cfg s) :
    Meets (fun _ => True) (Stage.Sound cfg line) (refuse cfg t s lqe) :=
  Meets.after fun _ => h.congr rfl rfl

theorem cacheOnNew_sound (h : CacheInv cfg s) (on : cfg.hasDirectoryCache = true)
    (he : s.dir (cfg.lineOf lqe.address) = none) :
    Meets (fun _ => True) (Stage.Sound cfg (cfg.lineOf lqe.address)) (cacheOnNew cfg t s lqe) := by
  have absent : cfg.lineOf lqe.address ∉ s.dirCache (cfg.lineOf lqe.address % cfg.numSets) :=
    fun hk => by simpa [he] using h.known _ _ hk trivial
  unfold cacheOnNew
  dsimp only
  rw [if_neg (by simp [on])]
  split
  · split
    · rename_i dir scanned
      obtain ⟨rfl, -⟩ := h.scan _ scanned
      refine refuse_sound ?_
      exact h.congr rfl rfl
    · rename_i dir v scanned
      obtain ⟨rfl, victim⟩ := h.scan _ scanned
      obtain ⟨hv, e', he', free⟩ := victim v rfl
      exact ⟨(h.ready (h.displace absent hv he' free)).congr rfl rfl, rfl⟩
  · rename_i room
    exact ⟨(h.ready (h.fill absent room)).congr rfl rfl, rfl⟩

theorem cacheOnFound_sound (h : CacheInv cfg s) (on : cfg.hasDirectoryCache = true)
    (he : s.dir (cfg.lineOf lqe.address) = some e) :
    Meets (fun _ => True) (Stage.Sound cfg (cfg.lineOf lqe.address))
      (cacheOnFound cfg t s e lqe) := by
  have held : ∀ r, (some lqe : Option (Lqe C)) = some r →
      cfg.lineOf r.address = cfg.lineOf lqe.address := fun r hr => by
    cases hr
    rfl
  unfold cacheOnFound
  dsimp only
  rw [if_neg (by simp [on])]
  split
  · rename_i listed
    have front := h.front listed
    have ready := h.ready (front.apart _)
    split
    · split
      · trivial
      · rename_i pending hp
        exact ⟨ready.setEntry (e := { e with pending := none, notInDc := false })
          (fun _ hr => by cases hr), h.aimed _ e pending trivial he hp⟩
    · split
      · exact refuse_sound front
      · exact ⟨ready, rfl⟩
  · rename_i absent
    split
    · trivial
    · split
      · split
        · rename_i dir scanned
          obtain ⟨rfl, -⟩ := h.scan _ scanned
          refine refuse_sound ?_
          exact h.congr rfl rfl
        · rename_i dir v scanned
          obtain ⟨rfl, victim⟩ := h.scan _ scanned
          obtain ⟨hv, e', he', free⟩ := victim v rfl
          have ready := (h.ready (h.displace absent hv he' free)).setEntry
            (e := { e with pending := some lqe, notInDc := true }) held
          have stops := ready.inv (congrArg Option.isSome (setEntry_self _ _))
          refine InStep.congr stops ?_ ?_ <;> rfl
      · rename_i room
        have ready := (h.ready (h.fill absent room)).setEntry
          (e := { e with pending := some lqe, notInDc := true }) held
        have stops := ready.inv (congrArg Option.isSome (setEntry_self _ _))
        refine InStep.congr stops ?_ ?_ <;> rfl

theorem cacheOnRequest_sound (h : CacheInv cfg s) (on : cfg.hasDirectoryCache = true) :
    Meets (fun _ => True) (Stage.Sound cfg (cfg.lineOf lqe.address))
      (cacheOnRequest cfg t s lqe) := by
  unfold cacheOnRequest
  split
  · rename_i he
    exact cacheOnNew_sound h on he
  · rename_i e he
    exact cacheOnFound_sound h on he

theorem serveReply_inv (h : InStep cfg (· ≠ cfg.lineOf lqe.address) s)
    (on : cfg.hasDirectoryCache = true)
    (kept : ∀ e, s.dir (cfg.lineOf lqe.address) = some e → pinned e →
      cfg.lineOf lqe.address ∈ s.dirCache (cfg.lineOf lqe.address % cfg.numSets))
    (aimed : ∀ e r, s.dir (cfg.lineOf lqe.address) = some e → e.pending = some r →
      cfg.lineOf r.address = cfg.lineOf lqe.address) (calls : List (Call C)) :
    Meets (fun _ => True) (fun r => CacheInv cfg r.1) (serveReply cfg t s lqe calls) := by
  unfold serveReply
  simp only [meets_bind, meets_pure]
  cases hf : s.dir (cfg.lineOf lqe.address) with
  | none =>
    refine reply_none.mono (fun o ho => ?_) fun _ h => h
    exact h.apply on (fun e he => by cases ho.symm.trans he) fun e r he => by cases ho.symm.trans he
  | some e =>
    refine reply_loosens.mono (fun o ho => ?_) fun _ h => h
    exact h.apply on (fun e' he hp => kept e hf ((ho e' he).1 hp))
      fun e' r he hr => aimed e r hf ((ho e' he).2 r hr)

theorem serveRequest_meets {post : Directory C × Effects C → Prop} {calls : List (Call C)}
    {deleted : List (Lqe C)}
    (h : Meets (fun _ => True) (fun o => post (s.apply cfg (cfg.lineOf lqe.address) o,
      { calls := calls ++ o.calls, deleted := deleted ++ o.deleted }))
      (request cfg t (s.dir (cfg.lineOf lqe.address)) lqe s.stats)) :
    Meets (fun _ => True) post (serveRequest cfg t s lqe calls deleted) := by
  unfold serveRequest
  rw [meets_bind]
  refine h.mono (fun o ho => ?_) fun _ h => h
  split
  · trivial
  · exact ho

theorem serveRequest_inv (ready : Ready cfg (cfg.lineOf lqe.address) s)
    (on : cfg.hasDirectoryCache = true) (calls : List (Call C)) (deleted : List (Lqe C)) :
    Meets (fun _ => True) (fun r => CacheInv cfg r.1) (serveRequest cfg t s lqe calls deleted) := by
  refine serveRequest_meets ((request_holds _).mono (fun o ho => ?_) fun _ h => h)
  obtain ⟨e', he', pending⟩ := ho
  refine ready.others.apply on (fun _ _ _ => ready.listed) fun e r he hr => ?_
  cases he'.symm.trans he
  rcases pending r hr with rfl | ⟨e, hf, hp⟩
  · rfl
  · exact ready.aimed e r hf hp

theorem processReply_inv (h : CacheInv cfg s) (on : cfg.hasDirectoryCache = true) :
    Meets (fun _ => True) (fun r => CacheInv cfg r.1) (processReply cfg t s lqe) := by
  have plain : Meets (fun _ => True) (fun r => CacheInv cfg r.1) (serveReply cfg t s lqe []) :=
    serveReply_inv (h.apart _) on (fun e he => h.kept _ e trivial he)
      (fun e r he => h.aimed _ e r trivial he) []
  unfold processReply
  split
  · exact plain
  · rename_i e he
    split
    · have sound := cacheOnReply_sound (t := t) h on he
      split
      · rename_i s' effects hs
        rw [hs] at sound
        exact sound
      · rename_i s' lqe' calls deleted hs
        rw [hs] at sound
        obtain ⟨ready, line⟩ := sound
        rw [← line] at ready
        exact serveReply_inv ready.others on (fun _ _ _ => ready.listed) ready.aimed calls
    · exact plain

theorem processRequest_inv (h : CacheInv cfg s) (on : cfg.hasDirectoryCache = true) :
    Meets (fun _ => True) (fun r => CacheInv cfg r.1) (processRequest cfg t s lqe) := by
  unfold processRequest
  simp only [meets_bind]
  refine (cacheOnRequest_sound h on).mono (fun stage sound => ?_) fun _ h => h
  cases stage with
  | stop s' effects => exact sound
  | go s' lqe' calls deleted =>
    obtain ⟨ready, line⟩ := sound
    rw [← line] at ready
    exact serveRequest_inv ready on calls deleted

/-- The message that `process_event` deals with, and whether it is a reply. -/
def next (t : Nat) (s : Directory C) : Option (Bool × Lqe C) :=
  match (s.takeEvents t).repQ, (s.takeEvents t).reqQ with
  | lqe :: _, _ => some (true, lqe)
  | [], lqe :: _ => some (false, lqe)
  | [], [] => none

def taken (t : Nat) (s : Directory C) : Directory C :=
  let s := s.takeEvents t
  match s.repQ with
  | _ :: repQ => { s with repQ }
  | [] => { s with reqQ := s.reqQ.tail }

def process (cfg : DirConfig C) (t : Nat) (s : Directory C) (isReply : Bool) (lqe : Lqe C) :
    Except Abort (Directory C × Effects C) :=
  if isReply then processReply cfg t s lqe else processRequest cfg t s lqe

omit [LinearOrder C] in
theorem taken_reply {repQ : List (Lqe C)} (h : (s.takeEvents t).repQ = lqe :: repQ) :
    next t s = some (true, lqe) ∧ taken t s = { s.takeEvents t with repQ } := by
  unfold next taken
  dsimp only
  constructor
  · rw [h]
  · split
    · rename_i heq
      cases h.symm.trans heq
      rfl
    · rename_i heq
      cases h.symm.trans heq

omit [LinearOrder C] in
theorem taken_request {reqQ : List (Lqe C)} (hr : (s.takeEvents t).repQ = [])
    (h : (s.takeEvents t).reqQ = lqe :: reqQ) :
    next t s = some (false, lqe) ∧ taken t s = { s.takeEvents t with reqQ } := by
  unfold next taken
  dsimp only
  constructor
  · rw [hr, h]
  · split
    · rename_i heq
      cases hr.symm.trans heq
    · rw [h]
      rfl

theorem processEvent_cases {effects : Effects C} (h : processEvent cfg t s = .ok (s', effects)) :
    ∃ isReply lqe r, next t s = some (isReply, lqe) ∧
      process cfg t (taken t s) isReply lqe = .ok r ∧
      s' = r.1 ∧ effects.calls = r.2.calls ∧ effects.deleted = r.2.deleted := by
  unfold processEvent serve at h
  dsimp only at h
  split at h
  · rename_i lqe repQ hrep
    obtain ⟨hn, ht⟩ := taken_reply hrep
    cases hp : processReply cfg t { s.takeEvents t with repQ } lqe with
    | error e => simp [hp, bind, Except.bind] at h
    | ok r =>
      simp only [hp, bind, Except.bind, pure, Except.pure, Except.ok.injEq] at h
      refine ⟨true, lqe, r, hn, by rw [ht]; exact hp, ?_⟩
      split at h <;> cases h <;> exact ⟨rfl, rfl, rfl⟩
  · rename_i lqe reqQ hrep hreq
    obtain ⟨hn, ht⟩ := taken_request hrep hreq
    cases hp : processRequest cfg t { s.takeEvents t with reqQ } lqe with
    | error e => simp [hp, bind, Except.bind] at h
    | ok r =>
      simp only [hp, bind, Except.bind, pure, Except.pure, Except.ok.injEq] at h
      refine ⟨false, lqe, r, hn, by rw [ht]; exact hp, ?_⟩
      split at h <;> cases h <;> exact ⟨rfl, rfl, rfl⟩
  · cases h

theorem processEvent_request (hn : next t s = some (false, lqe)) {a : Abort}
    (h : processEvent cfg t s = .error a) : processRequest cfg t (taken t s) lqe = .error a := by
  unfold processEvent serve at h
  dsimp only at h
  split at h
  · rename_i hrep
    cases (taken_reply hrep).1.symm.trans hn
  · rename_i reqQ hrep hreq
    obtain ⟨hn', ht⟩ := taken_request hrep hreq
    cases hn'.symm.trans hn
    rw [ht]
    cases hp : processRequest cfg t { s.takeEvents t with reqQ } lqe with
    | error b =>
      simp only [hp, bind, Except.bind] at h
      exact h
    | ok r => simp [hp, bind, Except.bind, pure, Except.pure] at h
  · rename_i hrep hreq
    unfold next at hn
    rw [hrep, hreq] at hn
    cases hn

omit [LinearOrder C] in
theorem taken_dir : (taken t s).dir = s.dir := by
  unfold taken
  dsimp only
  split <;> rfl

omit [LinearOrder C] in
theorem taken_dirCache : (taken t s).dirCache = s.dirCache := by
  unfold taken
  dsimp only
  split <;> rfl

theorem process_inv (h : CacheInv cfg s) (on : cfg.hasDirectoryCache = true) (isReply : Bool) :
    Meets (fun _ => True) (fun r => CacheInv cfg r.1) (process cfg t s isReply lqe) := by
  cases isReply with
  | true => exact processReply_inv h on
  | false => exact processRequest_inv h on

end Process

end Directory
end McSim
