import McSim.Lib.Multimap
import Mathlib.Logic.Function.Basic

/-! Inboxes.
Requests and replies come for a time. When it has come, the requests are dealt to queues and the
replies wait in one queue. What holds of every element that comes holds of every one that is
kept. -/

namespace Inbox

variable {K α : Type}

def Timed (p : α → Prop) (m : List (K × α)) : Prop := ∀ e ∈ m, p e.2

section Timed
variable {p : α → Prop} {m : List (K × α)} {a : α}

theorem Timed.nil : Timed p ([] : List (K × α)) := fun _ h => by cases h

variable [LinearOrder K]

theorem Timed.insert (h : Timed p m) (ha : p a) (k : K) : Timed p (Multimap.insert k a m) := by
  intro e he
  rcases Multimap.mem_insert.mp he with rfl | he
  · exact ha
  · exact h e he

theorem Timed.front (h : Timed p m) (k : K) : ∀ a ∈ (Multimap.front k m).map (·.2), p a := by
  intro a ha
  obtain ⟨e, he, rfl⟩ := List.mem_map.mp ha
  exact h e ((List.takeWhile_sublist _).subset he)

theorem Timed.dropWhile (h : Timed p m) (k : K) : Timed p (m.dropWhile fun e => e.1 = k) :=
  fun e he => h e ((List.dropWhile_sublist _).subset he)

end Timed

theorem deal_forall {p : α → Prop} {slot : α → Nat} (due : List α) {qs : Nat → List α}
    (h : ∀ i, ∀ a ∈ qs i, p a) (hd : ∀ a ∈ due, p a) :
    ∀ i, ∀ a ∈ due.foldl (fun qs a => Function.update qs (slot a) (qs (slot a) ++ [a])) qs i, p
      a := by
  induction due generalizing qs with
  | nil => exact h
  | cons d due ih =>
    refine ih (fun i a ha => ?_) fun a ha => hd a (List.mem_cons_of_mem d ha)
    dsimp only at ha
    by_cases hi : i = slot d
    · subst hi
      rw [Function.update_self] at ha
      rcases List.mem_append.mp ha with ha | ha
      · exact h _ a ha
      · rw [List.mem_singleton.mp ha]
        exact hd d List.mem_cons_self
    · rw [Function.update_of_ne hi] at ha
      exact h i a ha

/-- Requests satisfy `req` and replies `rep`, wherever they are kept. -/
structure All (req rep : α → Prop) (reqEvent repEvent : List (K × α)) (repQ : List α)
    (reqQs : Nat → List α) : Prop where
  reqEvent : Timed req reqEvent
  repEvent : Timed rep repEvent
  repQ : ∀ a ∈ repQ, rep a
  reqQs : ∀ i, ∀ a ∈ reqQs i, req a

namespace All

variable {req rep : α → Prop} {reqEvent repEvent : List (K × α)} {repQ : List α}
    {reqQs : Nat → List α}
  {a : α}

theorem empty : All req rep ([] : List (K × α)) [] [] fun _ => [] :=
  ⟨.nil, .nil, fun _ h => (by cases h), fun _ _ h => by cases h⟩

section Time
variable [LinearOrder K]

theorem addReq (h : All req rep reqEvent repEvent repQ reqQs) (ha : req a) (k : K) :
    All req rep (Multimap.insert k a reqEvent) repEvent repQ reqQs :=
  ⟨h.reqEvent.insert ha k, h.repEvent, h.repQ, h.reqQs⟩

theorem addRep (h : All req rep reqEvent repEvent repQ reqQs) (ha : rep a) (k : K) :
    All req rep reqEvent (Multimap.insert k a repEvent) repQ reqQs :=
  ⟨h.reqEvent, h.repEvent.insert ha k, h.repQ, h.reqQs⟩

theorem repQ_take (h : All req rep reqEvent repEvent repQ reqQs) (k : K) :
    ∀ a ∈ repQ ++ (Multimap.front k repEvent).map (·.2), rep a := fun a ha =>
  (List.mem_append.mp ha).elim (h.repQ a) (h.repEvent.front k a)

theorem take (h : All req rep reqEvent repEvent repQ reqQs) (k : K) (slot : α → Nat) :
    All req rep (reqEvent.dropWhile fun e => e.1 = k) (repEvent.dropWhile fun e => e.1 = k)
      (repQ ++ (Multimap.front k repEvent).map (·.2))
      (((Multimap.front k reqEvent).map (·.2)).foldl (fun qs a =>
        Function.update qs (slot a) (qs (slot a) ++ [a])) reqQs) :=
  ⟨h.reqEvent.dropWhile k, h.repEvent.dropWhile k, h.repQ_take k,
    deal_forall _ h.reqQs (h.reqEvent.front k)⟩

theorem takeAll {reqQ : List α} (h : All req rep reqEvent repEvent repQ fun _ => reqQ) (k : K) :
    All req rep (reqEvent.dropWhile fun e => e.1 = k) (repEvent.dropWhile fun e => e.1 = k)
      (repQ ++ (Multimap.front k repEvent).map (·.2))
      (fun _ => reqQ ++ (Multimap.front k reqEvent).map (·.2)) :=
  ⟨h.reqEvent.dropWhile k, h.repEvent.dropWhile k, h.repQ_take k, fun i a ha =>
    (List.mem_append.mp ha).elim (h.reqQs i a) (h.reqEvent.front k a)⟩

end Time

theorem uncons (h : All req rep reqEvent repEvent (a :: repQ) reqQs) :
    rep a ∧ All req rep reqEvent repEvent repQ reqQs :=
  ⟨h.repQ a List.mem_cons_self, h.reqEvent, h.repEvent,
    fun b hb => h.repQ b (List.mem_cons_of_mem a hb), h.reqQs⟩

theorem heads (h : All req rep reqEvent repEvent repQ reqQs) (n : Nat) :
    (∀ a ∈ (List.range n).filterMap fun i => (reqQs i).head?, req a) ∧
      All req rep reqEvent repEvent repQ fun i => (reqQs i).tail := by
  refine ⟨fun a ha => ?_, h.reqEvent, h.repEvent, h.repQ,
    fun i b hb => h.reqQs i b (List.mem_of_mem_tail hb)⟩
  obtain ⟨i, -, hi⟩ := List.mem_filterMap.mp ha
  exact h.reqQs i a (List.mem_of_mem_head? hi)

end All

def Due (reqEvent repEvent : List (K × α)) (k : K) :
    Prop := ∃ a, (k, a) ∈ reqEvent ∨ (k, a) ∈ repEvent

/-- What is kept for a time is in order, and only `n` queues are in use. -/
structure Tidy [LinearOrder K] (n : Nat) (reqEvent repEvent : List (K × α)) (reqQs : Nat → List α) :
    Prop where
  reqs : Multimap.Ordered reqEvent
  reps : Multimap.Ordered repEvent
  queues : ∀ i, n ≤ i → reqQs i = []

theorem deal_queues {n : Nat} {slot : α → Nat} (slots : ∀ a, slot a < n) (due : List α)
    {qs : Nat → List α} (h : ∀ i, n ≤ i → qs i = []) : ∀ i, n ≤ i →
    due.foldl (fun qs a => Function.update qs (slot a) (qs (slot a) ++ [a])) qs i = [] := by
  induction due generalizing qs with
  | nil => exact h
  | cons d due ih =>
    refine ih fun i hi => ?_
    have other : i ≠ slot d := ((slots d).trans_le hi).ne'
    dsimp only
    rw [Function.update_of_ne other]
    exact h i hi

namespace Tidy

variable [LinearOrder K] {n : Nat} {reqEvent repEvent : List (K × α)} {reqQs : Nat → List α}

theorem empty : Tidy n ([] : List (K × α)) [] fun _ => [] :=
  ⟨Multimap.ordered_nil, Multimap.ordered_nil, fun _ _ => rfl⟩

theorem addReq (h : Tidy n reqEvent repEvent reqQs) (k : K) (a : α) :
    Tidy n (Multimap.insert k a reqEvent) repEvent reqQs :=
  ⟨Multimap.insert_ordered h.reqs, h.reps, h.queues⟩

theorem addRep (h : Tidy n reqEvent repEvent reqQs) (k : K) (a : α) :
    Tidy n reqEvent (Multimap.insert k a repEvent) reqQs :=
  ⟨h.reqs, Multimap.insert_ordered h.reps, h.queues⟩

theorem take (h : Tidy n reqEvent repEvent reqQs) {k : K}
    (first : ∀ j, Due reqEvent repEvent j → k ≤ j) {slot : α → Nat} (slots : ∀ a, slot a < n)
    (due : List α) :
    Tidy n (reqEvent.dropWhile fun e => e.1 = k) (repEvent.dropWhile fun e => e.1 = k)
        (due.foldl (fun qs a => Function.update qs (slot a) (qs (slot a) ++ [a])) reqQs) ∧
      ∀ j, Due (reqEvent.dropWhile fun e => e.1 = k) (repEvent.dropWhile fun e => e.1 = k) j →
        Due reqEvent repEvent j ∧ j ≠ k := by
  rw [Multimap.dropWhile_eq_erase h.reqs fun e he => first e.1 ⟨e.2, .inl he⟩,
    Multimap.dropWhile_eq_erase h.reps fun e he => first e.1 ⟨e.2, .inr he⟩]
  refine ⟨⟨Multimap.erase_ordered h.reqs, Multimap.erase_ordered h.reps,
    deal_queues slots due h.queues⟩, fun j => ?_⟩
  rintro ⟨a, he | he⟩
  · exact ⟨⟨a, .inl (Multimap.mem_erase.mp he).1⟩, (Multimap.mem_erase.mp he).2⟩
  · exact ⟨⟨a, .inr (Multimap.mem_erase.mp he).1⟩, (Multimap.mem_erase.mp he).2⟩

end Tidy

theorem due_insert_req [LinearOrder K] {reqEvent repEvent : List (K × α)} {k j : K} {a : α}
    (h : Due (Multimap.insert k a reqEvent) repEvent j) : j = k ∨ Due reqEvent repEvent j := by
  obtain ⟨b, he | he⟩ := h
  · rcases Multimap.mem_insert.mp he with same | he
    · exact .inl (congrArg Prod.fst same)
    · exact .inr ⟨b, .inl he⟩
  · exact .inr ⟨b, .inr he⟩

theorem due_insert_rep [LinearOrder K] {reqEvent repEvent : List (K × α)} {k j : K} {a : α}
    (h : Due reqEvent (Multimap.insert k a repEvent) j) : j = k ∨ Due reqEvent repEvent j := by
  obtain ⟨b, he | he⟩ := h
  · exact .inr ⟨b, .inl he⟩
  · rcases Multimap.mem_insert.mp he with same | he
    · exact .inl (congrArg Prod.fst same)
    · exact .inr ⟨b, .inr he⟩

end Inbox
