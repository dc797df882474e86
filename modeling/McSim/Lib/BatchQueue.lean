import Mathlib.Logic.Relation
import Mathlib.Data.List.Perm.Basic

/-! Queues that are served in batches.
The first so many requests form a batch; those that come later are not part of it. The next batch is
formed when no member is left. Requests outside of the batch may be served as well. -/

/-- The members of the batch that wait, the other requests, and those that were served; besides, all
members of the batch, and those that were served. -/
structure BatchQueue (α : Type) where
  batch : List α := []
  rest : List α := []
  served : List α := []
  members : List α := []
  gone : List α := []

namespace BatchQueue

variable {α : Type} {size : Nat} {q q' : BatchQueue α}

inductive Step (size : Nat) : BatchQueue α → BatchQueue α → Prop
  | arrive (q : BatchQueue α) (new : List α) : Step size q { q with rest := q.rest ++ new }
  | form (q : BatchQueue α) (empty : q.batch = []) : Step size q { q with
      batch := q.rest.take size, rest := q.rest.drop size, members := q.rest.take size, gone := [] }
  | serve (q : BatchQueue α) {i : Nat} {a : α} (get : q.batch[i]? = some a) : Step size q { q with
      batch := q.batch.eraseIdx i, served := q.served ++ [a], gone := q.gone ++ [a] }
  | serveRest (q : BatchQueue α) {i : Nat} {a : α} (get : q.rest[i]? = some a) :
      Step size q { q with
      rest := q.rest.eraseIdx i, served := q.served ++ [a] }

abbrev Steps (size : Nat) : BatchQueue α → BatchQueue α → Prop := Relation.ReflTransGen (Step size)

def Run (size : Nat) (q : BatchQueue α) : Prop := Steps size {} q

/-- What waits of a batch is what was not served, in the order in which it came. -/
structure Sound (size : Nat) (q : BatchQueue α) : Prop where
  left : (q.batch ++ q.gone).Perm q.members
  order : q.batch.Sublist q.members
  small : q.members.length ≤ size

theorem step_sound (h : q.Sound size) (step : Step size q q') : q'.Sound size := by
  cases step with
  | arrive new => exact ⟨h.left, h.order, h.small⟩
  | form empty =>
    refine ⟨?_, List.Sublist.refl _, List.length_take_le _ _⟩
    rw [List.append_nil]
  | @serve i a get =>
    obtain ⟨hlt, get⟩ := List.getElem?_eq_some_iff.mp get
    refine ⟨?_, (List.eraseIdx_sublist _ _).trans h.order, h.small⟩
    have moved : (q.batch.eraseIdx i ++ (q.gone ++ [a])).Perm
      (a :: q.batch.eraseIdx i ++ q.gone) := by
      rw [← List.append_assoc]
      exact List.perm_append_singleton a _
    rw [← get] at moved ⊢
    exact moved.trans (((List.getElem_cons_eraseIdx_perm hlt).append_right q.gone).trans h.left)
  | serveRest get => exact ⟨h.left, h.order, h.small⟩

end BatchQueue
