import McSim.DirectoryTrail

/-! The modified copies of a line, at the handlers of the directory.
A handler hands a copy out where there is none and nobody else is waited for, keeps its L2 the one
sharer while it is out, and writes what an `et_evict` brings back. -/

namespace McSim

namespace Directory

open Contract Net

variable {C : Type} [LinearOrder C]

def writesOf (cfg : DirConfig C) (call : Call C) : List (Lqe C) :=
  match route cfg call with
  | .memory lqe => if lqe.type = .eRd ∨ isInfo lqe.type = true then [] else [lqe]
  | _ => []

/-- A call that concerns no modified copy: neither a grant nor a demand that is answered without
data, neither a read nor a write that somebody has sent. -/
def Plain (cfg : DirConfig C) (call : Call C) : Prop :=
  match route cfg call with
  | .l2 _ lqe => lqe.type ≠ .write ∧ ¬ Dataless lqe.type
  | .memory lqe => lqe.type ≠ .eRd ∧ lqe.serial = none
  | .nowhere => True

/-- A handler carries the modified copies `copy` of its line on, and passes the write-backs
`own`. -/
structure Carries (cfg : DirConfig C) (copy : C → Prop) (own : List (Lqe C)) (o : Outcome C) :
    Prop where
  owner : ∀ c, copy c → readsSent cfg o.calls = 0 ∧
    ∃ e, o.entry = some e ∧ e.sharedL2 = {c} ∧ Lent e.type
  grant : ∀ call ∈ o.calls, ∀ c lqe, route cfg call = .l2 c lqe → lqe.type = .write →
    o.calls = [call] ∧ (∀ a, ¬ copy a) ∧ ∃ e, o.entry = some e ∧ e.sharedL2 = {c} ∧
      e.type = .modified
  dataless : ∀ call ∈ o.calls, ∀ c lqe, route cfg call = .l2 c lqe → Dataless lqe.type →
    ∀ a, ¬ copy a
  upgrade : ∀ call ∈ o.calls, ∀ c lqe, route cfg call = .l2 c lqe →
    demandOf lqe.type = some .upgrade →
    ∀ e, o.entry = some e → e.sharedL2 = {c}
  read : ∀ call ∈ o.calls, ∀ lqe, route cfg call = .memory lqe → lqe.type = .eRd →
    ∀ e, o.entry = some e → ∃ c' c path, lqe.path = c' :: c :: path ∧ e.sharedL2 = {c}
  written : (o.calls.flatMap (writesOf cfg)).filter (·.serial.isSome) = own

variable {cfg : DirConfig C} {t : Nat} {e : DirEntry C} {lqe : Lqe C} {st : DirStats}
    {copy : C → Prop}
  {own : List (Lqe C)} {o : Outcome C}

theorem meets_addEventToUL (isData : Bool) : Meets (fun _ => True)
    (fun call => ∃ c path, lqe.path = c :: path ∧ route cfg call = .l2 c lqe)
    (addEventToUL cfg t lqe isData) := by
  cases hpath : lqe.path with
  | nil => simp [addEventToUL, Lqe.top, hpath]
  | cons c path =>
    obtain ⟨call, hcall, hroute⟩ := @addEventToUL_ok _ _ cfg t lqe c path isData hpath
    rw [hcall]
    exact ⟨c, path, rfl, hroute⟩

theorem meets_addEventToULpp (isData : Bool) : Meets (fun _ => True)
    (fun call => ∃ c path, lqe.path = c :: path ∧ route cfg call = .l2 c lqe)
    (addEventToULpp cfg t lqe isData) := by
  cases hpath : lqe.path with
  | nil => simp [addEventToULpp, Lqe.top, hpath]
  | cons c path =>
    obtain ⟨call, hcall, hroute⟩ := @addEventToULpp_ok _ _ cfg t lqe c path isData hpath
    rw [hcall]
    exact ⟨c, path, rfl, hroute⟩

theorem plain_l2 {call : Call C} {c : C} (h : route cfg call = .l2 c lqe) (hw : lqe.type ≠ .write)
    (hd : ¬ Dataless lqe.type) : Plain cfg call := by
  rw [Plain, h]
  exact ⟨hw, hd⟩

theorem Carries.plain (hcalls : ∀ call ∈ o.calls, Plain cfg call)
    (howner : ∀ c, copy c → ∃ e, o.entry = some e ∧ e.sharedL2 = {c} ∧ Lent e.type) :
    Carries cfg copy [] o where
  owner c hc := by
    refine ⟨List.countP_eq_zero.mpr fun call hcall => ?_, howner c hc⟩
    have plain := hcalls call hcall
    unfold Plain at plain
    split at plain <;> simp_all
  grant call hcall c lqe hr hw := by
    have plain := hcalls call hcall
    rw [Plain, hr] at plain
    exact absurd hw plain.1
  dataless call hcall c lqe hr hd := by
    have plain := hcalls call hcall
    rw [Plain, hr] at plain
    exact absurd hd plain.2
  upgrade call hcall c lqe hr hd := by
    have plain := hcalls call hcall
    rw [Plain, hr] at plain
    exact absurd (dataless_of_upgrade hd) plain.2
  read call hcall lqe hr ht := by
    have plain := hcalls call hcall
    rw [Plain, hr] at plain
    exact absurd ht plain.1
  written := by
    refine List.filter_eq_nil_iff.mpr fun lqe hlqe => ?_
    obtain ⟨call, hcall, hlqe⟩ := List.mem_flatMap.mp hlqe
    have plain := hcalls call hcall
    unfold Plain at plain
    unfold writesOf at hlqe
    split at hlqe
    · rename_i lqe' hr
      rw [hr] at plain
      split at hlqe
      · cases hlqe
      · rw [List.mem_singleton] at hlqe
        simp [hlqe, plain.2]
    · cases hlqe

theorem Carries.one {call : Call C} (hcall : o.calls = [call]) (hnone : ∀ a, ¬ copy a)
    (hup : ∀ c lqe, route cfg call = .l2 c lqe →
      (lqe.type = .write → ∃ e, o.entry = some e ∧ e.sharedL2 = {c} ∧ e.type = .modified) ∧
      (demandOf lqe.type = some .upgrade → ∀ e, o.entry = some e → e.sharedL2 = {c}))
    (hdown : ∀ lqe, route cfg call = .memory lqe → lqe.type = .eRd ∧
      ∀ e, o.entry = some e → ∃ c' c path, lqe.path = c' :: c :: path ∧ e.sharedL2 = {c}) :
    Carries cfg copy [] o where
  owner c hc := absurd hc (hnone c)
  grant call' hcall' c lqe hr hw := by
    obtain rfl : call' = call := by simpa [hcall] using hcall'
    exact ⟨hcall, hnone, (hup c lqe hr).1 hw⟩
  dataless _ _ _ _ _ _ := hnone
  upgrade call' hcall' c lqe hr hd := by
    obtain rfl : call' = call := by simpa [hcall] using hcall'
    exact (hup c lqe hr).2 hd
  read call' hcall' lqe hr _ := by
    obtain rfl : call' = call := by simpa [hcall] using hcall'
    exact (hdown lqe hr).2
  written := by
    simp only [hcall, List.flatMap_cons, List.flatMap_nil, List.append_nil, writesOf]
    split
    · rename_i lqe' hr
      rw [if_pos (.inl (hdown lqe' hr).1)]
      rfl
    · rfl

theorem Carries.still (hcalls : o.calls = [])
    (howner : ∀ c, copy c → ∃ e, o.entry = some e ∧ e.sharedL2 = {c} ∧ Lent e.type) :
    Carries cfg copy [] o :=
  .plain (by simp [hcalls]) howner

theorem repEvict_writes {c : C} {path : List C} (hpath : lqe.path = c :: path)
    (ht : e.type = .modified ∨ e.type = .mToS) (hs : e.sharedL2.card ≤ 1) (hc : c ∈ e.sharedL2) :
    ∃ entry stats, repEvict cfg t e lqe st =
      .ok { entry, calls := [toMc cfg t (lqe.push cfg.self)], stats } := by
  have few : ¬ e.sharedL2.card > 1 := by omega
  rcases ht with ht | ht
  · exact ⟨_, _, by simp only [repEvict, ht, if_neg few, Lqe.top_ok hpath, bind, Except.bind,
      if_neg (not_not.mpr hc), if_true]; rfl⟩
  · exact ⟨_, _, by simp only [repEvict, ht, if_neg few, Lqe.top_ok hpath, bind, Except.bind,
      if_neg (not_not.mpr hc), reduceCtorEq, if_false]; rfl⟩

theorem repEvict_carries {c : C} {path : List C} (hpath : lqe.path = c :: path)
    (htype : lqe.type = .evict) (hcopy : ∀ a, copy a → e.sharedL2 = {a} ∧ Lent e.type)
    (hgone : e.type = .modified ∨ e.type = .mToS → c ∈ e.sharedL2 → ∀ a, ¬ copy a)
    (hown : lqe.serial.isSome = true → (e.type = .modified ∨ e.type = .mToS) ∧ c ∈ e.sharedL2) :
    Meets (fun _ => True) (Carries cfg copy (if lqe.serial.isSome then [lqe.push cfg.self] else []))
      (repEvict cfg t e lqe st) := by
  by_cases hw : (e.type = .modified ∨ e.type = .mToS) ∧ c ∈ e.sharedL2
  · by_cases hs : e.sharedL2.card ≤ 1
    · obtain ⟨entry, stats, h⟩ := @repEvict_writes _ _ cfg t e lqe st c path hpath hw.1 hs hw.2
      have none := hgone hw.1 hw.2
      have write : ¬ ((lqe.push cfg.self).type = .eRd ∨
        isInfo (lqe.push cfg.self).type = true) := by
        simp [Lqe.push, htype, isInfo]
      rw [h]
      refine ⟨fun a ha => absurd ha (none a), ?_, ?_, ?_, ?_, ?_⟩
      · simp [route_toMc]
      · simp [route_toMc]
      · simp [route_toMc]
      · simp [route_toMc, Lqe.push, htype]
      · simp only [List.flatMap_cons, List.flatMap_nil, List.append_nil, writesOf, route_toMc,
          if_neg write, List.filter_cons, List.filter_nil]
        rfl
    · have many : e.sharedL2.card > 1 := by omega
      rcases hw.1 with ht | ht <;> simp only [repEvict, ht, if_pos many, meets_error]
  · have free : ¬ lqe.serial.isSome = true := fun h => hw (hown h)
    rw [if_neg free]
    have same : ∀ stats, Carries cfg copy [] { entry := some e, deleted := [lqe], stats } :=
      fun _ =>
      .still rfl fun a ha => ⟨e, rfl, hcopy a ha⟩
    have gone : ¬ Lent e.type →
      ∀ entry stats, Carries cfg copy [] { entry, deleted := [lqe], stats } :=
      fun h _ _ => .still rfl fun a ha => absurd (hcopy a ha).2 h
    have absent : e.type = .modified ∨ e.type = .mToS → c ∉ e.sharedL2 := fun ht hc => hw ⟨ht, hc⟩
    unfold repEvict
    dsimp only
    split
    · rename_i ht
      split
      · trivial
      · simp only [Lqe.top_ok hpath, meets_bind, meets_ok, if_pos (absent (.inl ht)), meets_pure]
        exact same _
    · rename_i ht
      split
      · trivial
      · simp only [Lqe.top_ok hpath, meets_bind, meets_ok, if_pos (absent (.inr ht)), meets_pure]
        exact same _
    · rename_i ht
      refine Meets.after fun top => gone ?_ _ _
      simp [Lent, ht]
    · exact same _
    · rename_i hM hS hT hTM
      have notLent : ¬ Lent e.type := fun h => by
        rcases h with h | h | h
        · exact hM h
        · exact hS h
        · exact hTM h
      refine Meets.after fun top => ?_
      split
      · exact gone notLent _ _
      · exact gone notLent _ _

theorem repEToX_carries (hcopy : ∀ a, copy a → e.sharedL2 = {a})
    (hgone : lqe.type = .eToI → ∀ a, ¬ copy a) :
    Meets (fun _ => True) (Carries cfg copy []) (repEToX (some e) lqe st) := by
  unfold repEToX
  dsimp only
  split
  · trivial
  · split
    · rename_i hI
      exact .still rfl fun a ha => absurd ha (hgone hI a)
    · exact .still rfl fun a ha => ⟨_, rfl, hcopy a ha, .inl rfl⟩

theorem resume_carries {p : Lqe C} (hnone : ∀ a, ¬ copy a) (hs : e.sharedL2 = ∅)
    (hp : p.type = .read ∨ p.type = .write) :
    Meets (fun _ => True) (Carries cfg copy []) (resume cfg t e p lqe st) := by
  unfold resume
  rw [meets_bind, Lqe.meets_top]
  refine ⟨fun _ => trivial, fun top path hpath => ?_⟩
  dsimp only
  split
  · rw [meets_bind]
    refine (meets_addEventToUL true).mono (fun call hcall => ?_) fun _ h => h
    obtain ⟨c, path', hpath', hroute⟩ := hcall
    obtain ⟨rfl, rfl⟩ := List.cons.inj (hpath.symm.trans hpath')
    refine .one rfl hnone (fun c' lqe' hr => ?_) fun lqe' hr => ?_
    · obtain ⟨rfl, rfl⟩ := Route.l2.inj (hroute.symm.trans hr)
      refine ⟨fun _ => ⟨_, rfl, by simp [hs], rfl⟩, fun hd => ?_⟩
      rcases hp with hp | hp <;> simp [hp, demandOf] at hd
    · cases hroute.symm.trans hr
  · refine .one rfl hnone (fun c' lqe' hr => by cases hr) fun lqe' hr => ?_
    obtain rfl := Route.memory.inj (route_toMc.symm.trans hr)
    refine ⟨rfl, ?_⟩
    rintro e' ⟨⟩
    exact ⟨cfg.self, top, path, by simp [Lqe.push, hpath], by simp [hs]⟩

theorem repInvalidate_carries (hnone : ∀ a, ¬ copy a)
    (hp : ∀ p, e.pending = some p → p.type = .read ∨ p.type = .write) :
    Meets (fun _ => True) (Carries cfg copy []) (repInvalidate cfg t (some e) lqe st) := by
  unfold repInvalidate
  dsimp only
  split
  · trivial
  · refine Meets.after fun lqe' => Meets.after fun top => ?_
    split
    · trivial
    · rename_i p hpending
      split
      · rename_i hs
        exact resume_carries hnone hs (hp p hpending)
      · exact .still rfl fun a ha => absurd ha (hnone a)

theorem repNd_carries (hnone : ∀ a, ¬ copy a) :
    Meets (fun _ => True) (Carries cfg copy []) (repNd cfg t (some e) lqe st) := by
  unfold repNd
  dsimp only
  split
  · trivial
  · split
    · trivial
    · rw [meets_bind]
      refine (meets_addEventToULpp false).mono (fun call hcall => ?_) fun _ h => h
      obtain ⟨c, path, -, hroute⟩ := hcall
      have plain : Plain cfg call := plain_l2 hroute (by simp) (by simp [Dataless, demandOf])
      split <;> exact .plain (by simpa using plain) fun a ha => absurd ha (hnone a)

theorem repData_carries (hnone : ∀ a, ¬ copy a) :
    Meets (fun _ => True) (Carries cfg copy []) (repData cfg t (some e) lqe st) := by
  unfold repData
  dsimp only
  split
  · trivial
  · split
    · trivial
    · refine Meets.after fun top => ?_
      rw [meets_bind]
      refine (meets_addEventToUL true).mono (fun call hcall => ?_) fun _ h => h
      obtain ⟨c, path, -, hroute⟩ := hcall
      have plain : Plain cfg call := plain_l2 hroute (by simp) (by simp [Dataless, demandOf])
      have back : ∀ call ∈ writeBack cfg t lqe, Plain cfg call := by
        unfold writeBack
        split <;> simp [Plain, Lqe.new]
      refine .plain (fun call' hcall' => ?_) fun a ha => absurd ha (hnone a)
      rcases List.mem_append.mp hcall' with hcall' | hcall'
      · exact back call' hcall'
      · rw [List.mem_singleton] at hcall'
        exact hcall' ▸ plain

theorem repFromMc_carries {found : Option (DirEntry C)} (hnone : ∀ a, ¬ copy a)
    (ht : lqe.type = .eRd) (hread : ∀ e, found = some e → ∃ c' c path, lqe.path = c' :: c :: path ∧
      e.sharedL2 = {c}) :
    Meets (fun _ => True) (Carries cfg copy []) (repFromMc cfg t found lqe st) := by
  have eRd : (EventType.eRd ≠ .write) ∧ ¬ Dataless .eRd := by simp [Dataless, demandOf]
  unfold repFromMc
  rw [meets_bind, Lqe.meets_pop]
  refine ⟨fun _ => trivial, fun c' path hpath => ?_⟩
  dsimp only
  split
  · rw [meets_bind]
    refine (meets_addEventToULpp true).mono (fun call hcall => ?_) fun _ h => h
    obtain ⟨c, path', -, hroute⟩ := hcall
    have plain : Plain cfg call := plain_l2 hroute (ht ▸ eRd.1) (ht ▸ eRd.2)
    exact .plain (by simpa using plain) fun a ha => absurd ha (hnone a)
  · rename_i e hfound
    have hfound : found = some e := (Option.filter_eq_some_iff.mp hfound).1
    split
    · rw [meets_bind]
      refine (meets_addEventToULpp true).mono (fun call hcall => ?_) fun _ h => h
      obtain ⟨c, path', -, hroute⟩ := hcall
      have plain : Plain cfg call := plain_l2 hroute (ht ▸ eRd.1) (ht ▸ eRd.2)
      exact .plain (by simpa using plain) fun a ha => absurd ha (hnone a)
    · rw [meets_bind]
      refine (meets_addEventToULpp true).mono (fun call hcall => ?_) fun _ h => h
      obtain ⟨c, path', hpath', hroute⟩ := hcall
      obtain ⟨d', d, path'', hd, hs⟩ := hread e hfound
      obtain ⟨-, rfl⟩ := List.cons.inj (hpath.symm.trans hd)
      obtain ⟨rfl, rfl⟩ := List.cons.inj (show d :: path'' = c :: path' from hpath')
      refine .one rfl hnone (fun a lqe' hr => ?_) fun lqe' hr => ?_
      · obtain ⟨rfl, rfl⟩ := Route.l2.inj (hroute.symm.trans hr)
        exact ⟨fun _ => ⟨_, rfl, hs, rfl⟩, fun hd => by cases hd⟩
      · cases hroute.symm.trans hr

theorem reqNew_carries (hnone : ∀ a, ¬ copy a) :
    Meets (fun _ => True) (Carries cfg copy []) (reqNew cfg t lqe st) := by
  unfold reqNew
  rw [meets_bind, Lqe.meets_top]
  refine ⟨fun _ => trivial, fun top path hpath => ?_⟩
  refine .one rfl hnone (fun c' lqe' hr => by cases hr) fun lqe' hr => ?_
  obtain rfl := Route.memory.inj (route_toMc.symm.trans hr)
  refine ⟨rfl, ?_⟩
  rintro e' ⟨⟩
  exact ⟨cfg.self, top, path, by simp [Lqe.push, hpath], rfl⟩

theorem nack_carries (hcopy : ∀ a, copy a → e.sharedL2 = {a} ∧ Lent e.type) :
    Meets (fun _ => True) (fun o => Carries cfg copy [] o ∧ o.entry = some e)
      (nack cfg t e lqe st) := by
  unfold nack
  rw [meets_bind]
  refine (meets_addEventToULpp false).mono (fun call hcall => ?_) fun _ h => h
  obtain ⟨c, path, -, hroute⟩ := hcall
  have plain : Plain cfg call := plain_l2 hroute (by simp) (by simp [Dataless, demandOf])
  exact ⟨.plain (by simpa using plain) fun a ha => ⟨e, rfl, hcopy a ha⟩, rfl⟩

theorem plain_ask {owner : C} {etype : EventType} (h : carriesData etype = true) :
    Plain cfg (addEventToComp cfg t owner (Lqe.new cfg.self etype lqe.address lqe.thId)) := by
  refine plain_l2 (route_addEventToComp owner) (fun hw => ?_) fun hd => ?_
  · rw [show etype = .write from hw] at h
    cases h
  · exact absurd hd.2 (by simpa [Lqe.new] using h)

theorem reqRead_carries (hcopy : ∀ a, copy a → e.sharedL2 = {a} ∧ Lent e.type) :
    Meets (fun _ => True) (Carries cfg copy []) (reqRead cfg t e lqe st) := by
  unfold reqRead
  refine Meets.after fun top => ?_
  split
  · exact (nack_carries hcopy).mono (fun _ h => h.1) fun _ h => h
  · split
    · split
      · trivial
      · split
        · trivial
        · rename_i owner howner
          split
          · rename_i hE
            refine .plain (by simpa [askOwner] using plain_ask rfl) fun a ha => ?_
            have lent := (hcopy a ha).2
            simp [Lent, hE] at lent
          · refine .plain (by simpa [askOwner] using plain_ask rfl) fun a ha => ?_
            exact ⟨_, rfl, (hcopy a ha).1, .inr (.inl rfl)⟩
    · split
      · rename_i hS
        split
        · trivial
        · refine .plain (by simpa [askOwner] using plain_ask rfl) fun a ha => ?_
          have lent := (hcopy a ha).2
          simp [Lent, hS] at lent
      · trivial

theorem plain_invalidation (c : C) : Plain cfg (invalidation cfg t lqe c .invalidate) :=
  plain_l2 (route_addEventToComp c) (by simp [Lqe.push, Lqe.new])
    (by simp [Lqe.push, Lqe.new, Dataless, carriesData])

theorem invalidations_carries (hnone : ∀ a, ¬ copy a)
    (hcalls : o.calls = invalidations cfg t e lqe) :
    Carries cfg copy [] o := by
  have told : ∀ call ∈ o.calls, ∃ c lqe', route cfg call = .l2 c lqe' ∧ lqe'.type ≠ .write ∧
      demandOf lqe'.type ≠ some .upgrade := by
    intro call hcall
    rw [hcalls, invalidations] at hcall
    split at hcall
    · obtain ⟨c, -, rfl⟩ := List.mem_map.mp hcall
      refine ⟨c, _, route_addEventToComp c, ?_⟩
      simp only [Lqe.push, Lqe.new]
      split
      · simp [demandOf]
      · split <;> simp [demandOf]
    · obtain ⟨c, -, rfl⟩ := List.mem_map.mp hcall
      refine ⟨c, _, route_addEventToComp c, ?_⟩
      simp only [Lqe.push, Lqe.new]
      split <;> simp [demandOf]
  refine ⟨fun a ha => absurd ha (hnone a), fun call hcall c lqe' hr hw => ?_,
    fun _ _ _ _ _ _ => hnone, fun call hcall c lqe' hr hd => ?_, fun call hcall lqe' hr => ?_, ?_⟩
  · obtain ⟨c', lqe'', hr', hnw, -⟩ := told call hcall
    obtain ⟨rfl, rfl⟩ := Route.l2.inj (hr'.symm.trans hr)
    exact absurd hw hnw
  · obtain ⟨c', lqe'', hr', -, hnd⟩ := told call hcall
    obtain ⟨rfl, rfl⟩ := Route.l2.inj (hr'.symm.trans hr)
    exact absurd hd hnd
  · obtain ⟨c', lqe'', hr', -⟩ := told call hcall
    cases hr'.symm.trans hr
  · have none : o.calls.flatMap (writesOf cfg) = [] := by
      refine List.flatMap_eq_nil_iff.mpr fun call hcall => ?_
      obtain ⟨c', lqe'', hr', -⟩ := told call hcall
      rw [writesOf, hr']
    rw [none]
    rfl

theorem reqWrite_carries (hcopy : ∀ a, copy a → e.sharedL2 = {a} ∧ Lent e.type) :
    Meets (fun _ => True) (Carries cfg copy []) (reqWrite cfg t e lqe st) := by
  have kept : ¬ Lent e.type → ∀ a, ¬ copy a := fun h a ha => h (hcopy a ha).2
  unfold reqWrite
  split
  · rename_i hE
    have none := kept (by simp [Lent, hE])
    split
    · trivial
    · rename_i hcard
      rw [meets_bind, Lqe.meets_top]
      refine ⟨fun _ => trivial, fun top path hpath => ?_⟩
      split
      · rename_i hmem
        rw [meets_bind]
        refine (meets_addEventToULpp false).mono (fun call hcall => ?_) fun _ h => h
        obtain ⟨c, path', hpath', hroute⟩ := hcall
        obtain ⟨rfl, rfl⟩ := List.cons.inj (hpath.symm.trans hpath')
        obtain ⟨owner, howner⟩ := Finset.card_eq_one.mp (not_not.mp hcard)
        have single : e.sharedL2 = {top} := by
          rw [howner, Finset.mem_singleton] at hmem
          rw [howner, hmem]
        refine .one rfl none (fun a lqe' hr => ?_) fun lqe' hr => ?_
        · obtain ⟨rfl, rfl⟩ := Route.l2.inj (hroute.symm.trans hr)
          refine ⟨fun hw => (by cases hw), fun _ => ?_⟩
          rintro e' ⟨⟩
          exact single
        · cases hroute.symm.trans hr
      · split
        · trivial
        · exact .plain (by simpa using plain_invalidation _) fun a ha => absurd ha (none a)
  · rename_i hS
    split
    · trivial
    · exact invalidations_carries (kept (by simp [Lent, hS])) rfl
  · split
    · trivial
    · refine Meets.after fun top => ?_
      split
      · rw [meets_bind]
        refine (meets_addEventToUL false).mono (fun call hcall => ?_) fun _ h => h
        obtain ⟨c, path, -, hroute⟩ := hcall
        have plain : Plain cfg call := plain_l2 hroute (by simp) (by simp [Dataless, demandOf])
        exact .plain (by simpa using plain) fun a ha => ⟨e, rfl, hcopy a ha⟩
      · split
        · trivial
        · exact .plain (by simpa using plain_invalidation _) fun a ha =>
            ⟨_, rfl, (hcopy a ha).1, .inr (.inr rfl)⟩
  · trivial

theorem request_carries {found : Option (DirEntry C)}
    (hcopy : ∀ a, copy a → ∃ e, found = some e ∧ e.sharedL2 = {a} ∧ Lent e.type) :
    Meets (fun _ => True) (fun o => Carries cfg copy [] o ∧
      ∀ e, found = some e → transient e.type = true → o.entry = some e)
        (request cfg t found lqe st) := by
  cases found with
  | none =>
    have none : ∀ a, ¬ copy a := fun a ha => by
      obtain ⟨e, he, -⟩ := hcopy a ha
      cases he
    exact (reqNew_carries none).mono (fun o ho => ⟨ho, fun e he => by cases he⟩) fun _ h => h
  | some e =>
    have own : ∀ a, copy a → e.sharedL2 = {a} ∧ Lent e.type := fun a ha => by
      obtain ⟨e', he, h⟩ := hcopy a ha
      cases he
      exact h
    unfold request
    dsimp only
    split
    · refine (nack_carries own).mono (fun o ho => ⟨ho.1, ?_⟩) fun _ h => h
      rintro e' ⟨⟩ -
      exact ho.2
    · rename_i hst
      have settled : ∀ e', some e = some e' → ¬ transient e'.type = true := fun e' he => by
        cases he
        exact hst
      split
      · exact (reqRead_carries own).mono
          (fun o ho => ⟨ho, fun e' he ht => absurd ht (settled e' he)⟩)
          fun _ h => h
      · split
        · exact (reqWrite_carries own).mono
            (fun o ho => ⟨ho, fun e' he ht => absurd ht (settled e' he)⟩) fun _ h => h
        · trivial

theorem Continues.of_grant {load : Demand → C → Nat} {reads line : Nat} {c : C}
    (hcont : Continues cfg line load reads o) (hcar : Carries cfg copy own o) {call : Call C}
    (hcall : call ∈ o.calls) (hr : route cfg call = .l2 c lqe) (hw : lqe.type = .write) :
    load = 0 ∧ reads = 0 ∧ readsSent cfg o.calls = 0 := by
  obtain ⟨-, -, e, he, -, ht⟩ := hcar.grant call hcall c lqe hr hw
  have phase := hcont.phase
  rw [he] at phase
  obtain ⟨hload, hreads⟩ : load + sentTo cfg o.calls = 0 ∧ reads + readsSent cfg o.calls = 0 := by
    cases phase with
    | owned _ _ _ hload hreads => exact ⟨hload, hreads⟩
    | shared h => simp [ht] at h
    | reading h => simp [ht] at h
    | upgrading _ h => simp [ht] at h
    | invalidating _ h => simp [ht] at h
    | lending _ _ h => simp [ht] at h
  refine ⟨?_, by omega, by omega⟩
  funext d a
  have zero := congrFun (congrFun hload d) a
  simp only [Pi.add_apply, Pi.zero_apply] at zero ⊢
  omega

end Directory

end McSim
