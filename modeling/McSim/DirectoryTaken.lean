import McSim.DirectoryHandled

/-! Replies that the directory takes.
A reply comes from the channel of its L2 or from what has been put back, and with it its mark leaves
the trail. Where it is put back once more, the trail is as it was. -/

namespace McSim

namespace Net

open Directory Contract

variable {C : Type} [LinearOrder C] {cfg : DirConfig C} {s s₀ : Net C} {dir : Directory C}
    {line t time : Nat}
  {found : Option (DirEntry C)} {st : DirStats} {lqe : Lqe C} {c : C} {rest : List (Lqe C)}

structure Taken (cfg : DirConfig C) (s s₀ : Net C) (c : C) (lqe : Lqe C) : Prop where
  dir : s₀.dir.dir = s.dir.dir
  mc : s₀.mc = s.mc
  todo : s₀.todo = s.todo
  down : s₀.down = s.down
  repUp : ∀ a, ∀ m ∈ s₀.repUp a, m ∈ s.repUp a
  marks : ∀ line a, trail cfg s line a =
    (if a = c then (upMark cfg line lqe).toList else []) ++ trail cfg s₀ line a

theorem Taken.tracked (k : Taken cfg s s₀ c lqe) (h : Tracked cfg s line) :
    Tracked cfg s₀ line := by
  refine h.moved (by rw [k.dir]) (by rw [reads, reads, k.mc]) (fun m hm _ => k.mc ▸ hm)
    (fun a => ?_)
    (fun a m hm _ => k.todo ▸ k.down ▸ hm) fun a m hm _ => .inl (k.repUp a m hm)
  exact ⟨_, (k.marks line a).symm⟩

theorem Taken.given_up (k : Taken cfg s s₀ c lqe) (h : Tracked cfg s line)
    (hmark : upMark cfg line lqe ≠ none) :
    Mark.copy ∉ trail cfg s₀ line c := by
  obtain ⟨mark, hmark⟩ := Option.ne_none_iff_exists'.mp hmark
  have leads := h.leads c
  rw [k.marks, if_pos rfl, hmark] at leads
  exact leads

theorem Taken.none_left (k : Taken cfg s s₀ c lqe) (h : Tracked cfg s line)
    (hc : Mark.copy ∉ trail cfg s₀ line c)
    (hshared : ∀ a e, s.dir.dir line = some e → e.sharedL2 = {a} → Lent e.type → a = c) (a : C) :
    Mark.copy ∉ trail cfg s₀ line a := by
  intro ha
  obtain ⟨-, e, he, hs, ht⟩ := (k.tracked h).owner a ha
  exact hc (hshared a e (k.dir ▸ he) hs ht ▸ ha)

omit [LinearOrder C] in
theorem copies_of_harmless {l : List (Lqe C)} (h : ∀ m ∈ l, demandOf m.type = none) :
    ∀ mark ∈ l.filterMap (upMark cfg line), mark = .copy := by
  intro mark hmem
  obtain ⟨m, hm, hmark⟩ := List.mem_filterMap.mp hmem
  cases mark with
  | copy => rfl
  | demand =>
    obtain ⟨-, hsome, -⟩ := upMark_eq_demand.mp hmark
    simp [h m hm] at hsome

theorem copies_eq {l l' : List Mark} (h : l.Perm l') (hl : ∀ mark ∈ l', mark = .copy) : l = l' := by
  rw [List.eq_replicate_iff.mpr ⟨rfl, hl⟩] at h ⊢
  exact List.perm_replicate.mp h

theorem trail_back {s' : Net C} (hback : s'.dir.repEvent.Perm ((time, lqe) :: s.dir.repEvent))
    (hk : Harmless s') (hrep : s'.repUp = s.repUp) (hmod : s'.modified = s.modified)
    (htodo : s'.todo = s.todo) (hdown : s'.down = s.down) (line : Nat) (a : C) :
      trail cfg s' line a =
      (if lqe.path.head? = some a then (upMark cfg line lqe).toList else []) ++ trail cfg s
        line a := by
  have perm : (s'.putBack a).Perm (if lqe.path.head? = some a then lqe :: s.putBack a
    else s.putBack a) := by
    refine ((hback.map (·.2)).filter _).trans (.of_eq ?_)
    simp [putBack, List.filter_cons]
  have copies := @copies_of_harmless _ cfg line _ (hk a)
  have marks : (s'.putBack a).filterMap (upMark cfg line) =
      (if lqe.path.head? = some a then (upMark cfg line lqe).toList else []) ++
        (s.putBack a).filterMap (upMark cfg line) := by
    refine (copies_eq (perm.filterMap _).symm copies).symm.trans ?_
    split
    · cases hm : upMark cfg line lqe <;> simp [hm]
    · rfl
  simp only [trail, up, hrep, hmod, htodo, hdown, List.filterMap_append, marks, List.append_assoc]

theorem taken_reply (h : ∀ line, Tracked cfg s line) (hk : Harmless s)
    (hrep : s.repUp c = lqe :: rest) (clear : (demandOf lqe.type).isSome = true → ∀ m ∈ s.putBack c,
      cfg.lineOf m.address = cfg.lineOf lqe.address → m.serial = none) :
    Taken cfg s (s.takeReply c rest) c lqe := by
  have taken : (s.takeReply c rest).repUp c = rest := Function.update_self ..
  have kept : ∀ {a}, a ≠ c → (s.takeReply c rest).repUp a = s.repUp a :=
    fun ha => Function.update_of_ne ha _ _
  refine ⟨rfl, rfl, rfl, rfl, fun a m hm => ?_, fun line a => ?_⟩
  · by_cases ha : a = c
    · subst ha
      rw [taken] at hm
      exact hrep ▸ List.mem_cons_of_mem _ hm
    · rwa [kept ha] at hm
  · by_cases ha : a = c
    · subst ha
      have back : (s.takeReply a rest).putBack a = s.putBack a := rfl
      have before : upMark cfg line lqe ≠ none → (s.putBack a).filterMap (upMark cfg line) = [] :=
        fun hm => by
        obtain ⟨mark, hmark⟩ := Option.ne_none_iff_exists'.mp hm
        cases mark with
        | copy =>
          have leads := (h line).leads a
          simp only [trail, up, hrep, List.filterMap_append, List.filterMap_cons_some hmark,
            List.append_assoc, List.cons_append] at leads
          exact leads.before
        | demand =>
          obtain ⟨rfl, hsome, -⟩ := upMark_eq_demand.mp hmark
          refine List.eq_nil_iff_forall_not_mem.mpr fun mark' hm' => ?_
          cases copies_of_harmless (hk a) mark' hm'
          obtain ⟨m, hm, hcopy⟩ := List.mem_filterMap.mp hm'
          obtain ⟨hl, -, hserial⟩ := upMark_eq_copy.mp hcopy
          simp [clear hsome m hm hl] at hserial
      simp only [trail, up, back, taken, hrep, if_true, List.filterMap_append]
      cases hm : upMark cfg line lqe with
      | none => rw [List.filterMap_cons_none hm]; rfl
      | some mark => rw [before (by simp [hm]), List.filterMap_cons_some hm]; rfl
    · rw [if_neg ha, List.nil_append]
      have same : (s.takeReply c rest).up a = s.up a := up_congr rfl (kept ha)
      exact (trail_congr same rfl rfl rfl).symm

theorem taken_again (hk : Harmless s) {i : Nat} (hget : s.dir.repEvent[i]? = some (time, lqe))
    (hpath : lqe.path.head? = some c) : Taken cfg s (s.takeAgain i) c lqe := by
  obtain ⟨hlt, hget⟩ := List.getElem?_eq_some_iff.mp hget
  have perm : s.dir.repEvent.Perm ((time, lqe) :: (s.takeAgain i).dir.repEvent) := by
    rw [← hget]
    exact (List.getElem_cons_eraseIdx_perm hlt).symm
  refine ⟨rfl, rfl, rfl, rfl, fun _ _ hm => hm, fun line a => ?_⟩
  rw [trail_back perm hk rfl rfl rfl rfl, hpath]
  congr 1
  exact if_congr (by simp [eq_comm]) rfl rfl

theorem Taken.back (k : Taken cfg s s₀ c lqe) (h : ∀ line, Tracked cfg s line)
    (hpath : lqe.path.head? = some c) (hk : Harmless { s₀ with dir }) (hdir : dir.dir = s₀.dir.dir)
    (hrep : dir.repEvent = Multimap.insert time lqe s₀.dir.repEvent) (line : Nat) :
    Tracked cfg { s₀ with dir } line := by
  have perm : ({ s₀ with dir } : Net C).dir.repEvent.Perm ((time, lqe) :: s₀.dir.repEvent) := by
    rw [hrep]
    exact Multimap.insert_perm ..
  refine (h line).moved ?_ ?_ (fun m hm _ => k.mc ▸ hm) (fun a => ?_)
    (fun a m hm _ => k.todo ▸ k.down ▸ hm)
    fun a m hm _ => .inl (k.repUp a m hm)
  · rw [← k.dir, ← hdir]
  · rw [reads, reads, ← k.mc]
  · rw [trail_back perm hk rfl rfl rfl rfl, hpath, k.marks line a]
    simp [eq_comm]

theorem tracked_back (h : ∀ line, Tracked cfg s line) (hk : Harmless { s with dir })
    (hdir : dir.dir = s.dir.dir) (hrep : dir.repEvent = Multimap.insert time lqe s.dir.repEvent)
    (silent : lqe.type ≠ .evict) (harmless : demandOf lqe.type = none) (line : Nat) :
      Tracked cfg { s with dir } line := by
  have perm : ({ s with dir } : Net C).dir.repEvent.Perm ((time, lqe) :: s.dir.repEvent) := by
    rw [hrep]
    exact Multimap.insert_perm ..
  have none : upMark cfg line lqe = none := by simp [upMark, silent, harmless]
  refine (h line).moved (by rw [← hdir]) le_rfl (fun _ hm _ => hm) (fun a => ?_)
    (fun _ _ hm _ => hm)
    fun _ _ hm _ => .inl hm
  rw [trail_back perm hk rfl rfl rfl rfl, none]
  simp

theorem tracked_marked (h : ∀ line, Tracked cfg s line)
    (same : found.map core = (s.dir.dir line).map core) (hdir : dir.dir =
      Function.update s.dir.dir line found) (hrep : dir.repEvent = s.dir.repEvent) (line' : Nat) :
    Tracked cfg { s with dir } line' := by
  have marks : ∀ a, trail cfg { s with dir } line' a = trail cfg s line' a := fun a =>
    trail_congr (by simp only [up, putBack, hrep]) rfl rfl rfl
  have entry : ∀ e', dir.dir line' = some e' → ∃ e, s.dir.dir line' = some e ∧ e'.type = e.type ∧
      e'.sharedL2 = e.sharedL2 := by
    intro e' he'
    rw [hdir] at he'
    by_cases hline : line' = line
    · subst hline
      rw [Function.update_self] at he'
      obtain ⟨e, he, ht, hs, -⟩ := core_eq_some same he'
      exact ⟨e, he, ht, hs⟩
    · rw [Function.update_of_ne hline] at he'
      exact ⟨e', he', rfl, rfl⟩
  have entry' : ∀ e, s.dir.dir line' = some e → ∃ e', dir.dir line' = some e' ∧ e'.type = e.type ∧
      e'.sharedL2 = e.sharedL2 := by
    intro e he
    rw [hdir]
    by_cases hline : line' = line
    · subst hline
      obtain ⟨e', he', ht, hs, -⟩ := core_eq_some same.symm he
      exact ⟨e', by rw [Function.update_self]; exact he', ht.symm, hs.symm⟩
    · exact ⟨e, by rw [Function.update_of_ne hline]; exact he, rfl, rfl⟩
  refine ⟨fun a => ?_, fun a hm => ?_, fun a m hm hl ht => ?_, fun a m hm hl ht => ?_,
    fun a m hm hab e' he' => ?_, fun m hm hl e' he' => ?_⟩
  · rw [marks]
    exact (h line').leads a
  · rw [marks] at hm
    obtain ⟨hr, e, he, hs, ht⟩ := (h line').owner a hm
    obtain ⟨e', he', ht', hs'⟩ := entry' e he
    exact ⟨hr, e', he', hs'.trans hs, ht' ▸ ht⟩
  · rw [marks]
    exact (h line').dataless a m hm hl ht
  · rw [marks]
    exact (h line').declined a m hm hl ht
  · obtain ⟨e, he, -, hs⟩ := entry e' he'
    rw [hs]
    exact (h line').upgrader a m hm hab e he
  · obtain ⟨e, he, -, hs⟩ := entry e' he'
    rw [hs]
    exact (h line').reader m hm hl e he

theorem tracked_recast (h : ∀ line, Tracked cfg s line)
    (same : found.map core = (s.dir.dir line).map core) (line' : Nat) :
      Tracked cfg (s.recast line found) line' :=
  @tracked_marked _ _ _ s (s.dir.setEntry line found) line found h same rfl rfl line'

theorem Taken.recast (k : Taken cfg s s₀ c lqe) (line : Nat) (found : Option (DirEntry C)) :
    Taken cfg (s.recast line found) (s₀.recast line found) c lqe where
  dir := by simp only [Net.recast, setEntry, k.dir]
  mc := k.mc
  todo := k.todo
  down := k.down
  repUp := k.repUp
  marks := k.marks

end Net
end McSim
