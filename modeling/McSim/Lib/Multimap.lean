import Mathlib.Data.List.TakeWhile
import Mathlib.Data.List.Sort
import Mathlib.Data.List.Count
import Mathlib.Data.List.Perm.Basic

/-! Ordered multimaps as association lists.
Entries are kept in ascending key order, and an insertion goes behind every entry
with the same key, so equal keys keep the order in which they arrived. This is the
discipline of the tree multimaps of the usual standard libraries. -/

namespace Multimap

variable {K V : Type} [LinearOrder K]

def insert (k : K) (v : V) : List (K × V) → List (K × V)
  | [] => [(k, v)]
  | e :: m => if k < e.1 then (k, v) :: e :: m else e :: insert k v m

def front (k : K) (m : List (K × V)) : List (K × V) := m.takeWhile (fun e => e.1 = k)

def erase (k : K) (m : List (K × V)) : List (K × V) := m.filter (fun e => ¬ e.1 = k)

def Ordered (m : List (K × V)) : Prop := m.Pairwise (fun a b => a.1 ≤ b.1)

@[simp] theorem ordered_nil : Ordered ([] : List (K × V)) := List.Pairwise.nil

theorem insert_perm (k : K) (v : V) (m : List (K × V)) :
    (insert k v m).Perm ((k, v) :: m) := by
  induction m with
  | nil => exact List.Perm.refl _
  | cons e m ih =>
    unfold insert
    split
    · exact List.Perm.refl _
    · exact (ih.cons e).trans (List.Perm.swap _ _ _)

@[simp] theorem mem_insert {k : K} {v : V} {m : List (K × V)} {e : K × V} :
    e ∈ insert k v m ↔ e = (k, v) ∨ e ∈ m := by
  rw [(insert_perm k v m).mem_iff, List.mem_cons]

theorem insert_ordered {k : K} {v : V} {m : List (K × V)} (h : Ordered m) :
    Ordered (insert k v m) := by
  induction m with
  | nil => exact List.pairwise_singleton _ _
  | cons e m ih =>
    obtain ⟨he, hm⟩ := List.pairwise_cons.mp h
    unfold insert
    split
    · rename_i hk
      refine List.pairwise_cons.mpr ⟨fun a ha => ?_, h⟩
      rcases List.mem_cons.mp ha with rfl | ha
      · exact hk.le
      · exact hk.le.trans (he a ha)
    · rename_i hk
      refine List.pairwise_cons.mpr ⟨fun a ha => ?_, ih hm⟩
      rcases mem_insert.mp ha with rfl | ha
      · exact not_lt.mp hk
      · exact he a ha

theorem filter_insert (k : K) (v : V) (m : List (K × V)) (h : Ordered m) (p : K × V → Bool)
    (hp : ∀ e, p e = true → e.1 = k) :
    (insert k v m).filter p = m.filter p ++ [(k, v)].filter p := by
  induction m with
  | nil => rfl
  | cons e m ih =>
    obtain ⟨he, hm⟩ := List.pairwise_cons.mp h
    unfold insert
    split
    · rename_i hk
      have none : (e :: m).filter p = [] := by
        refine List.filter_eq_nil_iff.mpr fun a ha hpa => ?_
        have hak := hp a hpa
        rcases List.mem_cons.mp ha with rfl | ha
        · exact absurd hk (by simp [hak])
        · exact absurd (hk.trans_le (he a ha)) (by simp [hak])
      rw [none, List.filter_cons, none, List.nil_append, List.filter_cons, List.filter_nil]
    · simp only [List.filter_cons, ih hm]
      split <;> rfl

theorem filter_insert_of_ne (k : K) (v : V) (m : List (K × V)) (p : K × V → Bool)
    (hp : p (k, v) = false) : (insert k v m).filter p = m.filter p := by
  induction m with
  | nil => simp [insert, hp]
  | cons e m ih =>
    unfold insert
    split
    · simp [hp]
    · simp only [List.filter_cons, ih]

theorem front_append_erase {k : K} {m : List (K × V)} (h : Ordered m) (hk : ∀ e ∈ m, k ≤ e.1) :
    front k m ++ erase k m = m := by
  induction m with
  | nil => rfl
  | cons e m ih =>
    obtain ⟨he, hm⟩ := List.pairwise_cons.mp h
    by_cases hek : e.1 = k
    · simpa [front, erase, hek] using ih hm (fun a ha => hk a (List.mem_cons_of_mem _ ha))
    · have hlt : k < e.1 := lt_of_le_of_ne (hk e List.mem_cons_self) (Ne.symm hek)
      have all : (e :: m).filter (fun a => ¬ a.1 = k) = e :: m := by
        refine List.filter_eq_self.mpr fun a ha => ?_
        rcases List.mem_cons.mp ha with rfl | ha
        · simpa using hek
        · simpa using (hlt.trans_le (he a ha)).ne'
      simpa [front, erase, hek] using all

theorem front_key {k : K} {m : List (K × V)} {e : K × V} (h : e ∈ front k m) : e.1 = k := by
  have := List.mem_takeWhile_imp h
  simpa using this

theorem erase_ordered {k : K} {m : List (K × V)} (h : Ordered m) : Ordered (erase k m) :=
  List.Pairwise.filter _ h

theorem mem_of_mem_erase {k : K} {m : List (K × V)} {e : K × V} (h : e ∈ erase k m) :
    e ∈ m ∧ e.1 ≠ k := by
  simpa [erase] using h

theorem mem_erase {k : K} {m : List (K × V)} {e : K × V} : e ∈ erase k m ↔ e ∈ m ∧ e.1 ≠ k := by
  simp [erase]

theorem dropWhile_eq_erase {k : K} {m : List (K × V)} (h : Ordered m) (hk : ∀ e ∈ m, k ≤ e.1) :
    (m.dropWhile fun e => e.1 = k) = erase k m := by
  have split : front k m ++ (m.dropWhile fun e => e.1 = k) = front k m ++ erase k m :=
    List.takeWhile_append_dropWhile.trans (front_append_erase h hk).symm
  exact List.append_cancel_left split

theorem mem_front {k : K} {v : V} {m : List (K × V)} (h : Ordered m) (hk : ∀ e ∈ m, k ≤ e.1)
    (hv : (k, v) ∈ m) : (k, v) ∈ front k m := by
  rw [← front_append_erase h hk] at hv
  exact (List.mem_append.mp hv).resolve_right fun he => (mem_of_mem_erase he).2 rfl

theorem front_perm (k : K) (m : List (K × V)) (queue : List V) :
    ((m.dropWhile (fun e => e.1 = k)).map (·.2) ++ (queue ++ (front k m).map (·.2))).Perm
      (m.map (·.2) ++ queue) := by
  have parts : m.map (·.2) =
      (front k m).map (·.2) ++ (m.dropWhile (fun e => e.1 = k)).map (·.2) := by
    rw [← List.map_append]
    exact congrArg _ (List.takeWhile_append_dropWhile).symm
  rw [parts, List.append_assoc, ← List.append_assoc]
  exact List.perm_append_comm

end Multimap
