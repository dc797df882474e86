import Mathlib.Data.List.Perm.Basic
import Mathlib.Data.List.Nodup
import Mathlib.Data.List.Forall2
import Mathlib.Data.List.Range

/-! Sets of a set-associative store.
A set is a list of entries in the order of replacement. An entry sits in a way and carries a tag,
and it may be valid. The order aside, most operations put one entry in the place of another. -/

namespace SetAssociative

variable {α : Type}

structure Reading (α : Type) where
  way : α → Nat
  tag : α → Nat
  valid : α → Prop

section Sets
variable {r : Reading α} {n i : Nat} {l l' l'' : List α} {e e' : α}

/-- The entries of a set are those of its ways, and no tag is there twice. -/
structure WellFormed (r : Reading α) (n : Nat) (l : List α) : Prop where
  ways : (l.map r.way).Perm (List.range n)
  distinct : l.Pairwise fun a b => r.valid a → r.valid b → r.tag a ≠ r.tag b

def Replaced (l : List α) (e e' : α) (l' : List α) : Prop :=
  ∃ rest, l.Perm (e :: rest) ∧ l'.Perm (e' :: rest)

/-- What may come in the place of `e`: an entry of the same way, for a tag that was there or for one
that is new. -/
structure Fits (r : Reading α) (l : List α) (e e' : α) : Prop where
  way : r.way e' = r.way e
  tag : r.valid e' → (r.valid e ∧ r.tag e' = r.tag e) ∨ ∀ a ∈ l, r.valid a → r.tag a ≠ r.tag e'

/-- Nothing has moved and no tag has changed; what is valid was so before. -/
def Demoted (r : Reading α) : List α → List α → Prop :=
  List.Forall₂ fun a b => r.way b = r.way a ∧ r.tag b = r.tag a ∧ (r.valid b → r.valid a)

/-- `e` was valid, and its way has become that of another tag. -/
structure Evicted (r : Reading α) (l l' : List α) (e : α) : Prop where
  mem : e ∈ l
  valid : r.valid e
  other : ∃ e' ∈ l', r.way e' = r.way e ∧ r.valid e' ∧ r.tag e' ≠ r.tag e

theorem wellFormed_map (r : Reading α) {f : Nat → α} (way : ∀ k, r.way (f k) = k)
    (empty : ∀ k, ¬ r.valid (f k)) (n : Nat) : WellFormed r n ((List.range n).map f) where
  ways := by
    rw [List.map_map, show r.way ∘ f = id from funext way, List.map_id]
  distinct := List.pairwise_map.mpr
    (List.pairwise_of_forall fun a _ valid => absurd valid (empty a))

theorem replaced_set (h : l[i]? = some e) (e' : α) : Replaced l e e' (l.set i e') := by
  obtain ⟨hlt, rfl⟩ := List.getElem?_eq_some_iff.mp h
  exact ⟨l.eraseIdx i, (List.getElem_cons_eraseIdx_perm hlt).symm,
    List.set_perm_cons_eraseIdx hlt e'⟩

theorem replaced_moved (h : l[i]? = some e) (e' : α) : Replaced l e e' (l.eraseIdx i ++ [e']) := by
  obtain ⟨hlt, rfl⟩ := List.getElem?_eq_some_iff.mp h
  exact ⟨l.eraseIdx i, (List.getElem_cons_eraseIdx_perm hlt).symm, List.perm_append_singleton _ _⟩

theorem Replaced.mem (h : Replaced l e e' l') : e ∈ l := by
  obtain ⟨rest, before, -⟩ := h
  exact before.mem_iff.mpr List.mem_cons_self

theorem Replaced.mem_new (h : Replaced l e e' l') : e' ∈ l' := by
  obtain ⟨rest, -, after⟩ := h
  exact after.mem_iff.mpr List.mem_cons_self

theorem Replaced.old_or_new (h : Replaced l e e' l') {a : α} (ha : a ∈ l') : a = e' ∨ a ∈ l := by
  obtain ⟨rest, before, after⟩ := h
  refine (List.mem_cons.mp (after.mem_iff.mp ha)).imp_right fun ha => ?_
  exact before.mem_iff.mpr (List.mem_cons_of_mem e ha)

theorem WellFormed.nodup (h : WellFormed r n l) : (l.map r.way).Nodup :=
  h.ways.nodup_iff.mpr List.nodup_range

theorem WellFormed.eq_of_way (h : WellFormed r n l) {a b : α} (ha : a ∈ l) (hb : b ∈ l)
    (same : r.way a = r.way b) : a = b :=
  List.inj_on_of_nodup_map h.nodup ha hb same

theorem WellFormed.eq_of_tag (h : WellFormed r n l) {a b : α} (ha : a ∈ l) (hb : b ∈ l)
    (va : r.valid a) (vb : r.valid b) (same : r.tag a = r.tag b) : a = b := by
  by_contra ne
  have symm : Std.Symm fun a b => r.valid a → r.valid b → r.tag a ≠ r.tag b :=
    ⟨fun _ _ apart vb va => (apart va vb).symm⟩
  exact h.distinct.forall ha hb ne va vb same

theorem WellFormed.replaced (h : WellFormed r n l) (fits : Fits r l e e')
    (hr : Replaced l e e' l') :
    WellFormed r n l' := by
  have mem := hr.mem
  obtain ⟨rest, before, after⟩ := hr
  have sym : ∀ {a b : α}, (r.valid a → r.valid b → r.tag a ≠ r.tag b) →
      r.valid b → r.valid a → r.tag b ≠ r.tag a := fun apart vb va => (apart va vb).symm
  obtain ⟨apart, rest_apart⟩ := List.pairwise_cons.mp (before.pairwise h.distinct sym)
  constructor
  · calc (l'.map r.way).Perm (r.way e' :: rest.map r.way) := after.map r.way
      _ = r.way e :: rest.map r.way := by rw [fits.way]
      List.Perm _ (l.map r.way) := (before.map r.way).symm
      List.Perm _ (List.range n) := h.ways
  · refine after.symm.pairwise (List.pairwise_cons.mpr ⟨fun a ha valid va => ?_, rest_apart⟩) sym
    rcases fits.tag valid with ⟨old, tag⟩ | fresh
    · rw [tag]
      exact apart a ha old va
    · exact (fresh a (before.mem_iff.mpr (List.mem_cons_of_mem e ha)) va).symm

theorem demoted_refl (r : Reading α) (l : List α) : Demoted r l l :=
  List.forall₂_same.mpr fun _ _ => ⟨rfl, rfl, id⟩

theorem Demoted.trans (h : Demoted r l l') (h' : Demoted r l' l'') : Demoted r l l'' := by
  induction h generalizing l'' with
  | nil => exact h'
  | cons first _ ih =>
    cases h' with
    | cons second rest =>
      exact .cons ⟨second.1.trans first.1, second.2.1.trans first.2.1,
        first.2.2 ∘ second.2.2⟩ (ih rest)

theorem demoted_modify {f : α → α} (at' : ∀ e, l[i]? = some e →
    r.way (f e) = r.way e ∧ r.tag (f e) = r.tag e ∧ (r.valid (f e) → r.valid e)) :
    Demoted r l (l.modify i f) := by
  refine List.forall₂_iff_get.mpr ⟨(List.length_modify ..).symm, fun k hk hk' => ?_⟩
  simp only [List.get_eq_getElem, List.getElem_modify]
  split
  · rename_i here
    subst here
    exact at' _ (List.getElem?_eq_getElem hk)
  · exact ⟨rfl, rfl, id⟩

theorem demoted_set (at' : l[i]? = some e) (way : r.way e' = r.way e) (tag : r.tag e' = r.tag e)
    (gone : ¬ r.valid e') : Demoted r l (l.set i e') := by
  rw [List.set_eq_modify]
  refine demoted_modify fun a ha => ?_
  rw [at'] at ha
  cases ha
  exact ⟨way, tag, fun valid => absurd valid gone⟩

theorem Demoted.map_way (h : Demoted r l l') : l'.map r.way = l.map r.way := by
  induction h with
  | nil => rfl
  | cons first _ ih => rw [List.map_cons, List.map_cons, first.1, ih]

theorem Demoted.source (h : Demoted r l l') (mem : e' ∈ l') :
    ∃ e ∈ l, r.way e' = r.way e ∧ r.tag e' = r.tag e ∧ (r.valid e' → r.valid e) := by
  induction h with
  | nil => cases mem
  | cons first _ ih =>
    rcases List.mem_cons.mp mem with rfl | mem
    · exact ⟨_, List.mem_cons_self, first⟩
    · obtain ⟨e, he, same⟩ := ih mem
      exact ⟨e, List.mem_cons_of_mem _ he, same⟩

theorem WellFormed.demoted (h : WellFormed r n l) (hd : Demoted r l l') : WellFormed r n l' where
  ways := hd.map_way ▸ h.ways
  distinct := by
    have distinct := h.distinct
    clear h
    induction hd with
    | nil => exact distinct
    | cons first rest ih =>
      obtain ⟨apart, distinct⟩ := List.pairwise_cons.mp distinct
      refine List.pairwise_cons.mpr ⟨fun b' hb' va vb => ?_, ih distinct⟩
      obtain ⟨b, hb, -, tag, valid⟩ := Demoted.source rest hb'
      rw [first.2.1, tag]
      exact apart b hb (first.2.2 va) (valid vb)

def SameTags (r : Reading α) (l l' : List α) : Prop :=
  (l'.map fun e => (r.way e, r.tag e)).Perm (l.map fun e => (r.way e, r.tag e))

theorem Demoted.sameTags (h : Demoted r l l') : SameTags r l l' := by
  unfold SameTags
  induction h with
  | nil => exact .refl _
  | cons first _ ih =>
    rw [List.map_cons, List.map_cons, first.1, first.2.1]
    exact ih.cons _

theorem Replaced.sameTags (h : Replaced l e e' l') (way : r.way e' = r.way e)
    (tag : r.tag e' = r.tag e) :
    SameTags r l l' := by
  obtain ⟨rest, before, after⟩ := h
  refine (after.map _).trans (.trans ?_ (before.map _).symm)
  rw [List.map_cons, List.map_cons, way, tag]

theorem SameTags.trans (h : SameTags r l l') (h' : SameTags r l' l'') : SameTags r l l'' :=
  List.Perm.trans h' h

theorem SameTags.not_evicted (h : SameTags r l l') (wf : WellFormed r n l) :
    ¬ Evicted r l l' e := by
  rintro ⟨mem, -, e', mem', way, -, tag⟩
  obtain ⟨a, ha, same⟩ := List.mem_map.mp (h.mem_iff.mp (List.mem_map_of_mem mem'))
  obtain ⟨way', tag'⟩ := Prod.mk.injEq .. ▸ same
  have : a = e := wf.eq_of_way ha mem (way'.trans way)
  exact tag (this ▸ tag'.symm)

theorem Replaced.evicted (h : Replaced l e e' l') (wf : WellFormed r n l)
    (fits : Fits r l e e') {a : α} (ha : Evicted r l l' a) : a = e ∧ ∀ b ∈ l, r.valid b →
      r.tag b ≠ r.tag e' := by
  obtain ⟨mem, valid, b, hb, way, vb, tag⟩ := ha
  rcases h.old_or_new hb with rfl | old
  · have here : a = e := wf.eq_of_way mem h.mem (way.symm.trans fits.way)
    refine ⟨here, (fits.tag vb).resolve_left fun same => tag ?_⟩
    rw [same.2, here]
  · exact absurd (congrArg r.tag (wf.eq_of_way old mem way)) tag

end Sets

section Recency
variable {ι : Type} [DecidableEq ι] {uses ids : List ι} {x y : ι}

/-- Uses are listed from the last one back. The last use of `x` is so many uses from the first, and
0 without any. -/
def lastUse (uses : List ι) (x : ι) : Nat := uses.length - uses.idxOf x

/-- In the order of last use; what has no use comes first. -/
def ByUse (uses ids : List ι) : Prop :=
  ids.Pairwise fun a b => lastUse uses a = 0 ∨ lastUse uses a < lastUse uses b

theorem lastUse_le (uses : List ι) (x : ι) : lastUse uses x ≤ uses.length := Nat.sub_le ..

@[simp] theorem lastUse_cons_self (uses : List ι) (x : ι) :
    lastUse (x :: uses) x = uses.length + 1 := by
  simp [lastUse]

theorem lastUse_cons_of_ne (uses : List ι) (ne : y ≠ x) :
    lastUse (x :: uses) y = lastUse uses y := by
  simp [lastUse, List.idxOf_cons_ne _ ne.symm]

theorem byUse_nil (ids : List ι) : ByUse [] ids :=
  List.pairwise_of_forall fun _ _ => .inl rfl

theorem ByUse.other (h : ByUse uses ids) (hx : x ∉ ids) : ByUse (x :: uses) ids := by
  refine List.Pairwise.imp_of_mem (fun {a b} ha hb before => ?_) h
  have ha : a ≠ x := ne_of_mem_of_not_mem ha hx
  have hb : b ≠ x := ne_of_mem_of_not_mem hb hx
  rw [lastUse_cons_of_ne _ ha, lastUse_cons_of_ne _ hb]
  exact before

theorem ByUse.moved {i : Nat} (h : ByUse uses ids) (nodup : ids.Nodup) (hx : ids[i]? = some x) :
    ByUse (x :: uses) (ids.eraseIdx i ++ [x]) := by
  obtain ⟨hlt, rfl⟩ := List.getElem?_eq_some_iff.mp hx
  have gone : ids[i] ∉ ids.eraseIdx i := by
    have perm := List.getElem_cons_eraseIdx_perm hlt
    exact (List.nodup_cons.mp (perm.nodup_iff.mpr nodup)).1
  have rest : ByUse uses (ids.eraseIdx i) := List.Pairwise.sublist (List.eraseIdx_sublist ..) h
  refine List.pairwise_append.mpr ⟨rest.other gone, List.pairwise_singleton _ _,
    fun a ha b hb => ?_⟩
  rw [List.mem_singleton.mp hb, lastUse_cons_self,
    lastUse_cons_of_ne _ (ne_of_mem_of_not_mem ha gone)]
  exact .inr (Nat.lt_succ_of_le (lastUse_le uses a))

theorem ByUse.head (h : ByUse uses ids) (hx : ids.head? = some x) :
    ∀ y ∈ ids, lastUse uses x ≤ lastUse uses y := by
  cases ids with
  | nil => cases hx
  | cons a ids =>
    cases hx
    intro y hy
    rcases List.mem_cons.mp hy with rfl | hy
    · exact le_rfl
    · rcases (List.pairwise_cons.mp h).1 y hy with never | lt
      · exact never ▸ Nat.zero_le _
      · exact lt.le

end Recency
end SetAssociative
