import McSim.Component
import Mathlib.Data.Finset.Insert

/-! The global event queue and the order in which it dispatches components.
`event_queue` is a map from ticks to sets of components, kept here as a list that
ascends in time. One pass of the loop in `process_event` picks the first component of
the first tick; core types leave the set before they run, every other type after. The
calls of `add_event` made while a component runs are an arbitrary list. -/

namespace McSim

variable {C : Type} [LinearOrder C]

structure GlobalEventQueue (C : Type) where
  eventQueue : List (Nat × Finset C) := []
  currTime : Nat := 0

namespace GlobalEventQueue

/-- `event_queue[event_time].insert(event_target)` -/
def insertAt (t : Nat) (c : C) : List (Nat × Finset C) → List (Nat × Finset C)
  | [] => [(t, {c})]
  | e :: q =>
    if t < e.1 then (t, {c}) :: e :: q
    else if t = e.1 then (e.1, insert c e.2) :: q
    else e :: insertAt t c q

def addEvent (g : GlobalEventQueue C) (t : Nat) (c : C) : GlobalEventQueue C :=
  { g with eventQueue := insertAt t c g.eventQueue }

def addEvents (g : GlobalEventQueue C) (calls : List (Nat × C)) : GlobalEventQueue C :=
  calls.foldl (fun g a => g.addEvent a.1 a.2) g

def eraseBegin (g : GlobalEventQueue C) (c : C) : GlobalEventQueue C :=
  match g.eventQueue with
  | [] => g
  | e :: q => { g with eventQueue := if e.2.erase c = ∅ then q else (e.1, e.2.erase c) :: q }

/-- The types that `process_event` takes out of the set before they run. -/
def erasedFirst : ComponentType → Bool
  | .core | .o3core => true
  | _ => false

/-- One pass of the loop of `process_event`: the tick, the component that ran and the
queue afterwards; `none` once the queue is empty. `calls` are the `add_event` calls the
component makes while it runs. -/
def dispatch (type : C → ComponentType) (g : GlobalEventQueue C) (calls : List (Nat × C)) :
    Except Abort (Option (Nat × C × GlobalEventQueue C)) :=
  match g.eventQueue with
  | [] => .ok none
  | e :: _ =>
    match first e.2 with
    | none => .error .fatal
    | some c =>
      let now := { g with currTime := e.1 }
      match type c with
      | .core | .o3core => .ok (some (e.1, c, (now.eraseBegin c).addEvents calls))
      | .tlbl2 => .error .fatal
      | _ => .ok (some (e.1, c, (now.addEvents calls).eraseBegin c))

inductive Event (C : Type)
  | added (t : Nat) (c : C)
  | dispatched (t : Nat) (c : C)
deriving DecidableEq

open Event

/-- Runs of the queue from the empty one. Every `add_event` is for a tick not earlier than
the one being processed; `ok` restricts what a component may do while it runs. -/
inductive Run (type : C → ComponentType) (ok : Nat → C → List (Nat × C) → Prop) :
    List (Event C) → GlobalEventQueue C → Prop
  | init : Run type ok [] {}
  | add {tr g} (t : Nat) (c : C) : Run type ok tr g → g.currTime ≤ t →
      Run type ok (tr ++ [added t c]) (g.addEvent t c)
  | dispatch {tr g t c g'} (calls : List (Nat × C)) : Run type ok tr g →
      (∀ a ∈ calls, t ≤ a.1) → ok t c calls → g.dispatch type calls = .ok (some (t, c, g')) →
      Run type ok (tr ++ dispatched t c :: calls.map (fun a => added a.1 a.2)) g'

def Mem (g : GlobalEventQueue C) (t : Nat) (c : C) : Prop := ∃ e ∈ g.eventQueue, e.1 = t ∧ c ∈ e.2

/-- Dispatch times never decrease; what is dispatched was added and not dispatched since; a
wake-up is served before any later tick, and until then it waits in the queue. -/
structure Correct (tr : List (Event C)) (g : GlobalEventQueue C) : Prop where
  monotone : ∀ (i j t : Nat) (c : C) (t' : Nat) (c' : C), i < j → tr[i]? = some (dispatched t c) →
    tr[j]? = some (dispatched t' c') → t ≤ t'
  wasAdded : ∀ (j t : Nat) (c : C), tr[j]? = some (dispatched t c) →
    ∃ i < j, tr[i]? = some (added t c) ∧
    ∀ k, i < k → k < j → tr[k]? ≠ some (dispatched t c)
  served : ∀ (i j t : Nat) (c : C) (t' : Nat) (c' : C), i < j → tr[i]? = some (added t c) →
    tr[j]? = some (dispatched t' c') → t < t' →
    ∃ k, i < k ∧ k < j ∧ tr[k]? = some (dispatched t c)
  waits : ∀ (i t : Nat) (c : C), tr[i]? = some (added t c) →
    (∃ k, i < k ∧ tr[k]? = some (dispatched t c)) ∨ g.Mem t c

theorem mem_insertAt {t : Nat} {c : C} {q : List (Nat × Finset C)} {t' : Nat} {c' : C} :
    (∃ e ∈ insertAt t c q, e.1 = t' ∧ c' ∈ e.2) ↔
      (t' = t ∧ c' = c) ∨ ∃ e ∈ q, e.1 = t' ∧ c' ∈ e.2 := by
  induction q with
  | nil => simp [insertAt, eq_comm]
  | cons e q ih =>
    unfold insertAt
    split
    · simp [eq_comm]
    · split
      · rename_i h
        simp only [List.mem_cons, exists_eq_or_imp, Finset.mem_insert, h, and_or_left, or_assoc,
          @eq_comm _ _ t']
      · simp only [List.mem_cons, exists_eq_or_imp, ih]
        exact or_left_comm

@[simp] theorem mem_addEvent {g : GlobalEventQueue C} {t : Nat} {c : C} {t' : Nat} {c' : C} :
    (g.addEvent t c).Mem t' c' ↔ (t' = t ∧ c' = c) ∨ g.Mem t' c' := mem_insertAt

@[simp] theorem mem_addEvents {g : GlobalEventQueue C} {calls : List (Nat × C)} {t : Nat} {c : C} :
    (g.addEvents calls).Mem t c ↔ (t, c) ∈ calls ∨ g.Mem t c := by
  induction calls generalizing g with
  | nil => simp [addEvents]
  | cons a calls ih =>
    rw [addEvents, List.foldl_cons, ← addEvents, ih, mem_addEvent, List.mem_cons]
    constructor
    · rintro (h | ⟨rfl, rfl⟩ | h)
      · exact .inl (.inr h)
      · exact .inl (.inl rfl)
      · exact .inr h
    · rintro ((rfl | h) | h)
      · exact .inr (.inl ⟨rfl, rfl⟩)
      · exact .inl h
      · exact .inr (.inr h)

@[simp] theorem addEvents_currTime (g : GlobalEventQueue C) (calls : List (Nat × C)) :
    (g.addEvents calls).currTime = g.currTime := by
  induction calls generalizing g with
  | nil => rfl
  | cons a calls ih => exact ih (g.addEvent a.1 a.2)

structure Ordered (q : List (Nat × Finset C)) : Prop where
  ascends : q.Pairwise (fun a b => a.1 < b.1)
  inhabited : ∀ e ∈ q, e.2.Nonempty

theorem insertAt_time {t : Nat} {c : C} {q : List (Nat × Finset C)} {e : Nat × Finset C}
    (h : e ∈ insertAt t c q) : e.1 = t ∨ ∃ e' ∈ q, e'.1 = e.1 := by
  induction q with
  | nil =>
    rw [insertAt, List.mem_singleton] at h
    exact .inl (by rw [h])
  | cons a q ih =>
    unfold insertAt at h
    split at h
    · rcases List.mem_cons.mp h with rfl | h
      · exact .inl rfl
      · exact .inr ⟨e, h, rfl⟩
    · split at h
      · rcases List.mem_cons.mp h with rfl | h
        · exact .inr ⟨a, List.mem_cons_self, rfl⟩
        · exact .inr ⟨e, List.mem_cons_of_mem _ h, rfl⟩
      · rcases List.mem_cons.mp h with rfl | h
        · exact .inr ⟨e, List.mem_cons_self, rfl⟩
        · rcases ih h with h | ⟨e', he', h⟩
          · exact .inl h
          · exact .inr ⟨e', List.mem_cons_of_mem _ he', h⟩

theorem insertAt_ordered {t : Nat} {c : C} {q : List (Nat × Finset C)} (h : Ordered q) :
    Ordered (insertAt t c q) := by
  induction q with
  | nil => exact ⟨List.pairwise_singleton _ _, by simp [insertAt]⟩
  | cons a q ih =>
    obtain ⟨ha, hq⟩ := List.pairwise_cons.mp h.ascends
    have tail := ih ⟨hq, fun e he => h.inhabited e (List.mem_cons_of_mem _ he)⟩
    unfold insertAt
    split
    · rename_i hlt
      refine ⟨List.pairwise_cons.mpr ⟨fun b hb => ?_, h.ascends⟩, ?_⟩
      · rcases List.mem_cons.mp hb with rfl | hb
        · exact hlt
        · exact hlt.trans (ha b hb)
      · intro e he
        rcases List.mem_cons.mp he with rfl | he
        · exact Finset.singleton_nonempty c
        · exact h.inhabited e he
    · split
      · refine ⟨List.pairwise_cons.mpr ⟨ha, hq⟩, ?_⟩
        intro e he
        rcases List.mem_cons.mp he with rfl | he
        · exact Finset.insert_nonempty _ _
        · exact h.inhabited e (List.mem_cons_of_mem _ he)
      · refine ⟨List.pairwise_cons.mpr ⟨fun b hb => ?_, tail.ascends⟩, ?_⟩
        · rcases insertAt_time hb with hb | ⟨b', hb', hb⟩
          · omega
          · exact hb ▸ ha b' hb'
        · intro e he
          rcases List.mem_cons.mp he with rfl | he
          · exact h.inhabited e List.mem_cons_self
          · exact tail.inhabited e he

theorem addEvents_ordered {g : GlobalEventQueue C} {calls : List (Nat × C)}
    (h : Ordered g.eventQueue) : Ordered (g.addEvents calls).eventQueue := by
  induction calls generalizing g with
  | nil => exact h
  | cons a calls ih => exact ih (insertAt_ordered h)

theorem eraseBegin_ordered {g : GlobalEventQueue C} {c : C} (h : Ordered g.eventQueue) :
    Ordered (g.eraseBegin c).eventQueue := by
  unfold eraseBegin
  split
  · exact h
  · rename_i e q hq
    rw [hq] at h
    obtain ⟨he, hq⟩ := List.pairwise_cons.mp h.ascends
    have tail : Ordered q := ⟨hq, fun e he => h.inhabited e (List.mem_cons_of_mem _ he)⟩
    dsimp only
    split
    · exact tail
    · rename_i hne
      refine ⟨List.pairwise_cons.mpr ⟨he, hq⟩, ?_⟩
      intro e' he'
      rcases List.mem_cons.mp he' with rfl | he'
      · exact Finset.nonempty_iff_ne_empty.mpr hne
      · exact tail.inhabited e' he'

theorem mem_eraseBegin {g : GlobalEventQueue C} (h : Ordered g.eventQueue) {t : Nat} {c : C}
    (hb : ∃ s q, g.eventQueue = (t, s) :: q) (t' : Nat) (c' : C) :
    (g.eraseBegin c).Mem t' c' ↔ g.Mem t' c' ∧ ¬ (t' = t ∧ c' = c) := by
  obtain ⟨s, q, hq⟩ := hb
  rw [hq] at h
  obtain ⟨ha, -⟩ := List.pairwise_cons.mp h.ascends
  have later : ∀ e ∈ q, e.1 = t' → t' ≠ t := fun e he ht => by
    have := ha e he
    simp only at this
    omega
  have split_erase : (g.eraseBegin c).Mem t' c' ↔
      (t = t' ∧ c' ∈ s.erase c) ∨ ∃ e ∈ q, e.1 = t' ∧ c' ∈ e.2 := by
    simp only [Mem, eraseBegin, hq]
    split
    · rename_i hs
      simp [hs]
    · simp
  rw [split_erase]
  simp only [Mem, hq, List.mem_cons, exists_eq_or_imp, Finset.mem_erase]
  constructor
  · rintro (⟨rfl, hc, hm⟩ | ⟨e, he, ht, hm⟩)
    · exact ⟨.inl ⟨rfl, hm⟩, fun h => hc h.2⟩
    · exact ⟨.inr ⟨e, he, ht, hm⟩, fun h => later e he ht h.1⟩
  · rintro ⟨⟨rfl, hm⟩ | ⟨e, he, ht, hm⟩, hne⟩
    · exact .inl ⟨rfl, fun h => hne ⟨rfl, h⟩, hm⟩
    · exact .inr ⟨e, he, ht, hm⟩

@[simp] theorem eraseBegin_currTime (g : GlobalEventQueue C) (c : C) :
    (g.eraseBegin c).currTime = g.currTime := by
  unfold eraseBegin
  split <;> rfl

theorem dispatch_cases {type : C → ComponentType} {g g' : GlobalEventQueue C}
    {calls : List (Nat × C)} {t : Nat} {c : C}
    (h : g.dispatch type calls = .ok (some (t, c, g'))) :
    ∃ s q, g.eventQueue = (t, s) :: q ∧ c ∈ s ∧
      ((erasedFirst (type c) = true ∧
        g' = (({ g with currTime := t } : GlobalEventQueue C).eraseBegin c).addEvents calls) ∨
      (erasedFirst (type c) = false ∧
        g' = (({ g with currTime := t } : GlobalEventQueue C).addEvents calls).eraseBegin c)) := by
  unfold dispatch at h
  split at h
  · cases h
  · rename_i e q hq
    split at h
    · cases h
    · rename_i d hd
      cases hk : type d <;> rw [hk] at h <;> cases h <;>
        exact ⟨e.2, q, hq, first_mem hd, by simp [erasedFirst, hk]⟩

theorem insertAt_begin {t : Nat} {c : C} {q : List (Nat × Finset C)} {t₀ : Nat}
    (hb : ∃ s r, q = (t₀, s) :: r) (ht : t₀ ≤ t) : ∃ s r, insertAt t c q = (t₀, s) :: r := by
  obtain ⟨s, r, rfl⟩ := hb
  unfold insertAt
  rw [if_neg (by simpa using ht)]
  split
  · exact ⟨_, _, rfl⟩
  · exact ⟨_, _, rfl⟩

theorem addEvents_begin {g : GlobalEventQueue C} {calls : List (Nat × C)} {t : Nat}
    (hb : ∃ s q, g.eventQueue = (t, s) :: q) (hc : ∀ a ∈ calls, t ≤ a.1) :
    ∃ s q, (g.addEvents calls).eventQueue = (t, s) :: q := by
  induction calls generalizing g with
  | nil => exact hb
  | cons a calls ih =>
    exact ih (insertAt_begin hb (hc a List.mem_cons_self))
      (fun b hb => hc b (List.mem_cons_of_mem _ hb))

/-- A dispatch takes its own pair out and puts the calls in, provided a component that
leaves the set only after it ran does not call for its own tick. -/
theorem mem_dispatch {type : C → ComponentType} {g g' : GlobalEventQueue C}
    {calls : List (Nat × C)} {t : Nat} {c : C} (ho : Ordered g.eventQueue)
    (hc : ∀ a ∈ calls, t ≤ a.1) (hok : erasedFirst (type c) = true ∨ (t, c) ∉ calls)
    (h : g.dispatch type calls = .ok (some (t, c, g'))) {t' : Nat} {c' : C} :
    g'.Mem t' c' ↔ (t', c') ∈ calls ∨ (g.Mem t' c' ∧ ¬ (t' = t ∧ c' = c)) := by
  obtain ⟨s, q, hq, -, ⟨-, rfl⟩ | ⟨he, rfl⟩⟩ := dispatch_cases h
  · have hb := mem_eraseBegin (g := { g with currTime := t }) (c := c) ho ⟨s, q, hq⟩ t' c'
    rw [mem_addEvents, hb]
    rfl
  · have hb := mem_eraseBegin (g := ({ g with currTime := t } : GlobalEventQueue C).addEvents calls)
      (c := c) (addEvents_ordered ho) (addEvents_begin ⟨s, q, hq⟩ hc) t' c'
    rw [hb, mem_addEvents]
    have own : (t, c) ∉ calls := by simpa [he] using hok
    constructor
    · rintro ⟨hm | hm, hne⟩
      · exact .inl hm
      · exact .inr ⟨hm, hne⟩
    · rintro (hm | ⟨hm, hne⟩)
      · exact ⟨.inl hm, fun h => own (h.1 ▸ h.2 ▸ hm)⟩
      · exact ⟨.inr hm, hne⟩

theorem dispatch_ordered {type : C → ComponentType} {g g' : GlobalEventQueue C}
    {calls : List (Nat × C)} {t : Nat} {c : C} (ho : Ordered g.eventQueue)
    (h : g.dispatch type calls = .ok (some (t, c, g'))) :
    Ordered g'.eventQueue ∧ g'.currTime = t := by
  obtain ⟨s, q, hq, -, ⟨-, rfl⟩ | ⟨-, rfl⟩⟩ := dispatch_cases h
  · exact ⟨addEvents_ordered (eraseBegin_ordered ho), by simp⟩
  · exact ⟨eraseBegin_ordered (addEvents_ordered ho), by simp⟩

omit [LinearOrder C] in
theorem le_of_mem {g : GlobalEventQueue C} {t : Nat} {s : Finset C} {q : List (Nat × Finset C)}
    (ho : Ordered g.eventQueue) (hq : g.eventQueue = (t, s) :: q) {t' : Nat} {c' : C}
    (h : g.Mem t' c') : t ≤ t' := by
  obtain ⟨e, he, rfl, -⟩ := h
  rw [hq] at ho he
  rcases List.mem_cons.mp he with rfl | he
  · exact le_rfl
  · exact ((List.pairwise_cons.mp ho.ascends).1 e he).le

section Histories
omit [LinearOrder C]

/-- The last thing that happened to `(t, c)` is that it was added. -/
def Waiting (tr : List (Event C)) (t : Nat) (c : C) : Prop :=
  ∃ i : Nat, tr[i]? = some (added t c) ∧ ∀ k, i < k → tr[k]? ≠ some (dispatched t c)

theorem getElem?_snoc {α : Type} {l : List α} {a b : α} {i : Nat} :
    (l ++ [a])[i]? = some b ↔ l[i]? = some b ∨ (i = l.length ∧ a = b) := by
  rcases lt_trichotomy i l.length with h | rfl | h
  · simp [List.getElem?_append_left h, h.ne]
  · simp
  · have h' : l.length ≤ i := h.le
    simp [List.getElem?_append_right h', List.getElem?_eq_none h', List.getElem?_eq_none, h.ne',
      show 1 ≤ i - l.length by omega]

theorem lt_of_getElem? {α : Type} {l : List α} {a : α} {i : Nat} (h : l[i]? = some a) :
    i < l.length := (List.getElem?_eq_some_iff.mp h).1

theorem waiting_added {tr : List (Event C)} {t : Nat} {c : C} {t' : Nat} {c' : C} :
    Waiting (tr ++ [added t c]) t' c' ↔ (t' = t ∧ c' = c) ∨ Waiting tr t' c' := by
  constructor
  · rintro ⟨i, hi, hk⟩
    rcases getElem?_snoc.mp hi with hi | ⟨-, he⟩
    · exact .inr ⟨i, hi, fun k hik h => hk k hik (getElem?_snoc.mpr (.inl h))⟩
    · cases he
      exact .inl ⟨rfl, rfl⟩
  · rintro (⟨rfl, rfl⟩ | ⟨i, hi, hk⟩)
    · refine ⟨tr.length, getElem?_snoc.mpr (.inr ⟨rfl, rfl⟩), fun k hlt h => ?_⟩
      have := lt_of_getElem? h
      simp only [List.length_append, List.length_singleton] at this
      omega
    · refine ⟨i, getElem?_snoc.mpr (.inl hi), fun k hik h => ?_⟩
      rcases getElem?_snoc.mp h with h | ⟨-, he⟩
      · exact hk k hik h
      · cases he

theorem waiting_dispatched {tr : List (Event C)} {t : Nat} {c : C} {t' : Nat} {c' : C} :
    Waiting (tr ++ [dispatched t c]) t' c' ↔ Waiting tr t' c' ∧ ¬ (t' = t ∧ c' = c) := by
  constructor
  · rintro ⟨i, hi, hk⟩
    rcases getElem?_snoc.mp hi with hold | ⟨-, he⟩
    · refine ⟨⟨i, hold, fun k hik h => hk k hik (getElem?_snoc.mpr (.inl h))⟩, ?_⟩
      rintro ⟨rfl, rfl⟩
      exact hk tr.length (lt_of_getElem? hold) (getElem?_snoc.mpr (.inr ⟨rfl, rfl⟩))
    · cases he
  · rintro ⟨⟨i, hi, hk⟩, hne⟩
    refine ⟨i, getElem?_snoc.mpr (.inl hi), fun k hik h => ?_⟩
    rcases getElem?_snoc.mp h with h | ⟨-, he⟩
    · exact hk k hik h
    · cases he
      exact hne ⟨rfl, rfl⟩

structure History (tr : List (Event C)) : Prop where
  monotone : ∀ (i j t : Nat) (c : C) (t' : Nat) (c' : C), i < j →
    tr[i]? = some (dispatched t c) → tr[j]? = some (dispatched t' c') → t ≤ t'
  wasAdded : ∀ (j t : Nat) (c : C), tr[j]? = some (dispatched t c) →
    ∃ i < j, tr[i]? = some (added t c) ∧ ∀ k, i < k → k < j → tr[k]? ≠ some (dispatched t c)
  served : ∀ (i j t : Nat) (c : C) (t' : Nat) (c' : C), i < j → tr[i]? = some (added t c) →
    tr[j]? = some (dispatched t' c') → t < t' →
    ∃ k, i < k ∧ k < j ∧ tr[k]? = some (dispatched t c)

theorem history_added {tr : List (Event C)} (h : History tr) (t : Nat) (c : C) :
    History (tr ++ [added t c]) := by
  have old : ∀ {k t' : Nat} {c' : C}, (tr ++ [added t c])[k]? = some (dispatched t' c') ↔
      tr[k]? = some (dispatched t' c') := by
    intro k t' c'
    simp [getElem?_snoc]
  refine ⟨?_, ?_, ?_⟩
  · intro i j t₁ c₁ t₂ c₂ hij hi hj
    exact h.monotone i j t₁ c₁ t₂ c₂ hij (old.mp hi) (old.mp hj)
  · intro j t₁ c₁ hj
    obtain ⟨i, hij, hi, hk⟩ := h.wasAdded j t₁ c₁ (old.mp hj)
    exact ⟨i, hij, getElem?_snoc.mpr (.inl hi), fun k h₁ h₂ h₃ => hk k h₁ h₂ (old.mp h₃)⟩
  · intro i j t₁ c₁ t₂ c₂ hij hi hj hlt
    have hj := old.mp hj
    have hi : tr[i]? = some (added t₁ c₁) := by
      rcases getElem?_snoc.mp hi with hi | ⟨rfl, -⟩
      · exact hi
      · exact absurd (lt_of_getElem? hj) (by omega)
    obtain ⟨k, h₁, h₂, hk⟩ := h.served i j t₁ c₁ t₂ c₂ hij hi hj hlt
    exact ⟨k, h₁, h₂, old.mpr hk⟩

theorem history_addeds {tr : List (Event C)} (h : History tr) (calls : List (Nat × C)) :
    History (tr ++ calls.map (fun a => added a.1 a.2)) := by
  induction calls generalizing tr with
  | nil => simpa using h
  | cons a calls ih =>
    have := ih (history_added h a.1 a.2)
    simpa using this

/-- A dispatch continues a history if its pair waits, no earlier pair waits and no later
tick was dispatched. -/
theorem history_dispatched {tr : List (Event C)} (h : History tr) {t : Nat} {c : C}
    (hw : Waiting tr t c) (hleast : ∀ t' c', Waiting tr t' c' → t ≤ t')
    (hpast : ∀ (i t' : Nat) (c' : C), tr[i]? = some (dispatched t' c') → t' ≤ t) :
    History (tr ++ [dispatched t c]) := by
  refine ⟨?_, ?_, ?_⟩
  · intro i j t₁ c₁ t₂ c₂ hij hi hj
    rcases getElem?_snoc.mp hj with hj | ⟨rfl, he⟩
    · rcases getElem?_snoc.mp hi with hi | ⟨rfl, -⟩
      · exact h.monotone i j t₁ c₁ t₂ c₂ hij hi hj
      · exact absurd (lt_of_getElem? hj) (by omega)
    · cases he
      rcases getElem?_snoc.mp hi with hi | ⟨rfl, -⟩
      · exact hpast i t₁ c₁ hi
      · omega
  · intro j t₁ c₁ hj
    rcases getElem?_snoc.mp hj with hj | ⟨rfl, he⟩
    · obtain ⟨i, hij, hi, hk⟩ := h.wasAdded j t₁ c₁ hj
      refine ⟨i, hij, getElem?_snoc.mpr (.inl hi), fun k h₁ h₂ h₃ => ?_⟩
      rcases getElem?_snoc.mp h₃ with h₃ | ⟨rfl, -⟩
      · exact hk k h₁ h₂ h₃
      · exact absurd (lt_of_getElem? hj) (by omega)
    · cases he
      obtain ⟨i, hi, hk⟩ := hw
      refine ⟨i, lt_of_getElem? hi, getElem?_snoc.mpr (.inl hi), fun k h₁ h₂ h₃ => ?_⟩
      rcases getElem?_snoc.mp h₃ with h₃ | ⟨rfl, -⟩
      · exact hk k h₁ h₃
      · omega
  · intro i j t₁ c₁ t₂ c₂ hij hi hj hlt
    have hi : tr[i]? = some (added t₁ c₁) := by
      rcases getElem?_snoc.mp hi with hi | ⟨-, he⟩
      · exact hi
      · cases he
    rcases getElem?_snoc.mp hj with hj | ⟨rfl, he⟩
    · obtain ⟨k, h₁, h₂, hk⟩ := h.served i j t₁ c₁ t₂ c₂ hij hi hj hlt
      exact ⟨k, h₁, h₂, getElem?_snoc.mpr (.inl hk)⟩
    · cases he
      -- the pair cannot wait any more: the dispatched tick is the least one waiting
      have hnw : ¬ Waiting tr t₁ c₁ := fun hw => absurd (hleast t₁ c₁ hw) (by omega)
      have hserved : ∃ k, i < k ∧ tr[k]? = some (dispatched t₁ c₁) := by
        by_contra hno
        push Not at hno
        exact hnw ⟨i, hi, hno⟩
      obtain ⟨k, hik, hk⟩ := hserved
      exact ⟨k, hik, lt_of_getElem? hk, getElem?_snoc.mpr (.inl hk)⟩

theorem waiting_addeds {tr : List (Event C)} {calls : List (Nat × C)} {t : Nat} {c : C} :
    Waiting (tr ++ calls.map (fun a => added a.1 a.2)) t c ↔ (t, c) ∈ calls ∨ Waiting tr t c := by
  induction calls generalizing tr with
  | nil => simp
  | cons a calls ih =>
    have := @ih (tr ++ [added a.1 a.2])
    rw [List.append_assoc, List.singleton_append] at this
    rw [List.map_cons, this, waiting_added, List.mem_cons, Prod.ext_iff, or_left_comm, or_assoc]

end Histories

structure Inv (tr : List (Event C)) (g : GlobalEventQueue C) : Prop where
  ordered : Ordered g.eventQueue
  history : History tr
  due : ∀ t c, g.Mem t c → g.currTime ≤ t
  past : ∀ (i t : Nat) (c : C), tr[i]? = some (dispatched t c) → t ≤ g.currTime
  waiting : ∀ t c, g.Mem t c ↔ Waiting tr t c

omit [LinearOrder C] in
theorem inv_init : Inv ([] : List (Event C)) {} where
  ordered := ⟨List.Pairwise.nil, by simp⟩
  history := ⟨by simp, by simp, by simp⟩
  due := by simp [Mem]
  past := by simp
  waiting := by simp [Mem, Waiting]

theorem inv_add {tr : List (Event C)} {g : GlobalEventQueue C} (h : Inv tr g) {t : Nat} {c : C}
    (ht : g.currTime ≤ t) : Inv (tr ++ [added t c]) (g.addEvent t c) where
  ordered := insertAt_ordered h.ordered
  history := history_added h.history t c
  due t' c' hm := by
    rcases mem_addEvent.mp hm with ⟨rfl, -⟩ | hm
    · exact ht
    · exact h.due t' c' hm
  past i t' c' hi := by
    rcases getElem?_snoc.mp hi with hi | ⟨-, he⟩
    · exact h.past i t' c' hi
    · cases he
  waiting t' c' := by rw [mem_addEvent, waiting_added, h.waiting]

theorem inv_dispatch {type : C → ComponentType} {tr : List (Event C)} {g g' : GlobalEventQueue C}
    (h : Inv tr g) {calls : List (Nat × C)} {t : Nat} {c : C} (hc : ∀ a ∈ calls, t ≤ a.1)
    (hok : erasedFirst (type c) = true ∨ (t, c) ∉ calls)
    (hd : g.dispatch type calls = .ok (some (t, c, g'))) :
    Inv (tr ++ dispatched t c :: calls.map (fun a => added a.1 a.2)) g' := by
  obtain ⟨s, q, hq, hs, -⟩ := dispatch_cases hd
  obtain ⟨ho, hnow⟩ := dispatch_ordered h.ordered hd
  have hmem : g.Mem t c := ⟨(t, s), by simp [hq], rfl, hs⟩
  have hleast : ∀ t' c', g.Mem t' c' → t ≤ t' := fun t' c' => le_of_mem h.ordered hq
  have hpast : ∀ (i t' : Nat) (c' : C), tr[i]? = some (dispatched t' c') → t' ≤ t :=
    fun i t' c' hi => (h.past i t' c' hi).trans (h.due t c hmem)
  rw [show tr ++ dispatched t c :: calls.map (fun a => added a.1 a.2) =
    (tr ++ [dispatched t c]) ++ calls.map (fun a => added a.1 a.2) by simp]
  refine ⟨ho, ?_, ?_, ?_, ?_⟩
  · refine history_addeds (history_dispatched h.history ((h.waiting t c).mp hmem) ?_ hpast) calls
    exact fun t' c' hw => hleast t' c' ((h.waiting t' c').mpr hw)
  · intro t' c' hm
    rw [hnow]
    rcases (mem_dispatch h.ordered hc hok hd).mp hm with hm | ⟨hm, -⟩
    · exact hc _ hm
    · exact hleast t' c' hm
  · intro i t' c' hi
    rw [hnow]
    have hi' : (tr ++ [dispatched t c])[i]? = some (dispatched t' c') := by
      rcases lt_or_ge i (tr ++ [dispatched t c]).length with hlt | hge
      · rwa [List.getElem?_append_left hlt] at hi
      · rw [List.getElem?_append_right hge, List.getElem?_map] at hi
        simp at hi
    rcases getElem?_snoc.mp hi' with hi' | ⟨-, he⟩
    · exact hpast i t' c' hi'
    · cases he
      exact le_rfl
  · intro t' c'
    rw [mem_dispatch h.ordered hc hok hd, waiting_addeds, waiting_dispatched, h.waiting]

/-- A component that leaves the set after it ran does not ask for its own tick again. -/
def NoSelfCall (type : C → ComponentType) (t : Nat) (c : C) (calls : List (Nat × C)) : Prop :=
  erasedFirst (type c) = true ∨ (t, c) ∉ calls

theorem run_inv {type : C → ComponentType} {tr : List (Event C)} {g : GlobalEventQueue C}
    (h : Run type (NoSelfCall type) tr g) : Inv tr g := by
  induction h with
  | init => exact inv_init
  | add t c _ ht ih => exact inv_add ih ht
  | dispatch calls _ hc hok hd ih => exact inv_dispatch ih hc hok hd

theorem run_correct {type : C → ComponentType} {tr : List (Event C)} {g : GlobalEventQueue C}
    (h : Run type (NoSelfCall type) tr g) : Correct tr g := by
  have hi := run_inv h
  refine ⟨hi.history.monotone, hi.history.wasAdded, hi.history.served, fun i t c hadd => ?_⟩
  by_cases hs : ∃ k, i < k ∧ tr[k]? = some (dispatched t c)
  · exact .inl hs
  · push Not at hs
    exact .inr ((hi.waiting t c).mpr ⟨i, hadd, hs⟩)

section Loop
variable {σ : Type} (type : C → ComponentType) (numHthreads : Nat)
  (run : σ → Nat → C → σ × List (Nat × C) × Nat)

/-- `GlobalEventQueue::process_event`, at most `fuel` passes and `none` beyond. `run st t c`
gives the state after `c->process_event(t)`, its `add_event` calls and its return value. -/
def processEvent : Nat → σ → GlobalEventQueue C →
    Except Abort (Option (Nat × σ × GlobalEventQueue C))
  | 0, _, _ => .ok none
  | fuel + 1, st, g =>
    match g.eventQueue with
    | [] => .ok (some (numHthreads, st, g))
    | e :: _ =>
      match first e.2 with
      | none => .error .fatal
      | some c =>
        let (st', calls, ret) := run st e.1 c
        match g.dispatch type calls with
        | .error a => .error a
        | .ok none => .ok (some (numHthreads, st, g))
        | .ok (some (_, _, g')) =>
          if erasedFirst (type c) = true ∧ ret < numHthreads then .ok (some (ret, st', g'))
          else processEvent fuel st' g'

theorem dispatch_first {g g' : GlobalEventQueue C} {calls : List (Nat × C)} {t t' : Nat}
    {c c' : C} {s : Finset C} {q : List (Nat × Finset C)} (hq : g.eventQueue = (t, s) :: q)
    (hc : first s = some c) (h : g.dispatch type calls = .ok (some (t', c', g'))) :
    t' = t ∧ c' = c := by
  simp only [dispatch, hq, hc] at h
  cases hk : type c <;> rw [hk] at h <;> cases h <;> exact ⟨rfl, rfl⟩

variable {type numHthreads run} in
theorem processEvent_run (hlater : ∀ st t c, ∀ a ∈ (run st t c).2.1, t ≤ a.1)
    (hself : ∀ st t c, NoSelfCall type t c (run st t c).2.1) {fuel : Nat} {st st' : σ}
    {g g' : GlobalEventQueue C} {tr : List (Event C)} {ret : Nat}
    (hr : Run type (NoSelfCall type) tr g)
    (h : processEvent type numHthreads run fuel st g = .ok (some (ret, st', g'))) :
    ∃ more, Run type (NoSelfCall type) (tr ++ more) g' ∧
      (ret = numHthreads → g'.eventQueue = []) := by
  induction fuel generalizing st g tr with
  | zero => cases h
  | succ fuel ih =>
    unfold processEvent at h
    split at h
    · rename_i hq
      cases h
      exact ⟨[], by simpa using hr, fun _ => hq⟩
    · rename_i e q hq
      split at h
      · cases h
      · rename_i c hc
        dsimp only at h
        split at h
        · cases h
        · rename_i hd
          obtain ⟨t, s⟩ := e
          simp only [dispatch, hq, hc] at hd
          cases hk : type c <;> rw [hk] at hd <;> cases hd
        · rename_i t' c' g₁ hd
          obtain ⟨rfl, rfl⟩ := dispatch_first type hq hc hd
          have step := hr.dispatch _ (hlater st e.1 c') (hself st e.1 c') hd
          split at h
          · rename_i hret
            cases h
            exact ⟨_, step, fun he => absurd hret.2 (by omega)⟩
          · obtain ⟨more, hm, he⟩ := ih step h
            exact ⟨_, by rwa [List.append_assoc] at hm, he⟩

variable {type numHthreads run} in
theorem processEvent_drained (hlater : ∀ st t c, ∀ a ∈ (run st t c).2.1, t ≤ a.1)
    (hself : ∀ st t c, NoSelfCall type t c (run st t c).2.1) {fuel : Nat} {st st' : σ}
    {g g' : GlobalEventQueue C} {tr : List (Event C)} (hr : Run type (NoSelfCall type) tr g)
    (h : processEvent type numHthreads run fuel st g = .ok (some (numHthreads, st', g'))) :
    ∃ more, Run type (NoSelfCall type) (tr ++ more) g' ∧
      ∀ (i t : Nat) (c : C), (tr ++ more)[i]? = some (added t c) →
        ∃ k, i < k ∧ (tr ++ more)[k]? = some (dispatched t c) := by
  obtain ⟨more, hm, he⟩ := processEvent_run hlater hself hr h
  refine ⟨more, hm, fun i t c hi => ?_⟩
  have hinv := run_inv hm
  by_contra hno
  push Not at hno
  obtain ⟨e, hmem, -⟩ := (hinv.waiting t c).mpr ⟨i, hi, hno⟩
  simp [he rfl] at hmem

end Loop

theorem run_correct_two_ticks :
    ∃ g, Run (fun _ : Nat => .cachel2) (NoSelfCall fun _ => .cachel2)
      [added 0 0, dispatched 0 0, added 1 0, dispatched 1 0] g ∧
    Correct [added 0 0, dispatched 0 0, added 1 0, dispatched 1 0] g := by
  have h₁ : Run (fun _ : Nat => .cachel2) (NoSelfCall fun _ => .cachel2) [added 0 0] _ :=
    Run.init.add 0 0 le_rfl
  have h₂ := h₁.dispatch (t := 0) (c := 0) [(1, 0)] (by decide) (.inr (by decide)) rfl
  have h₃ := h₂.dispatch (t := 1) (c := 0) [] (by decide) (.inr (by decide)) rfl
  exact ⟨_, h₃, run_correct h₃⟩

/-- A cache asks for its own tick while it runs: the insertion finds it still in the set,
the erasure after the run removes it, and the next tick is dispatched first. -/
theorem self_call_lost :
    ∃ tr g, Run (fun _ : Nat => .cachel2) (fun _ _ _ => True) tr g ∧ ¬ Correct tr g := by
  have h₁ : Run (fun _ : Nat => .cachel2) (fun _ _ _ => True) [added 0 0] _ :=
    Run.init.add 0 0 le_rfl
  have h₂ := h₁.dispatch (t := 0) (c := 0) [(0, 0), (1, 0)] (by decide) trivial rfl
  have h₃ := h₂.dispatch (t := 1) (c := 0) [] (by decide) trivial rfl
  refine ⟨_, _, h₃, fun h => ?_⟩
  obtain ⟨k, hk₁, hk₂, hk⟩ := h.served 2 4 0 0 1 0 (by decide) rfl rfl (by decide)
  obtain rfl : k = 3 := by omega
  simp at hk

end GlobalEventQueue
end McSim
