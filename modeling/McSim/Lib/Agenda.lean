import Mathlib.Data.Finset.Basic
import Mathlib.Algebra.Order.Group.Nat
import Mathlib.Algebra.GroupWithZero.Nat
import Mathlib.Tactic.Common

/-! Wake-ups of a component that works only when it is woken.
The agenda holds the ticks at which the component is woken, each once and in order. Work comes with
a date, or waits in a queue of which a run does a part; a run that leaves something behind asks to
be woken one period later. -/

/-- The ticks to come, the tick that is being processed and the tick of the last run, if any. -/
structure Agenda where
  events : Finset Nat := ∅
  now : Option Nat := none
  last : Option Nat := none

namespace Agenda

variable {a : Agenda} {period t u : Nat} {due due' : Nat → Prop} {queued queued' : Prop}

def add (a : Agenda) (t : Nat) : Agenda := { a with events := insert t a.events }

def advance (a : Agenda) (t : Nat) : Agenda := { a with now := some t }

def take (a : Agenda) (t : Nat) : Agenda :=
  { events := a.events.erase t, now := some t, last := some t }

def Later (a : Agenda) (t : Nat) : Prop := ∀ n ∈ a.now, n < t

/-- Time may go on to `t`: it does not go back, and no wake-up is passed over. -/
def Next (a : Agenda) (t : Nat) : Prop := (∀ n ∈ a.now, n ≤ t) ∧ ∀ u ∈ a.events, t ≤ u

/-- Work that is `due` at a tick, or `queued`, has a wake-up, and no wake-up is without work. -/
structure Keeps (a : Agenda) (period : Nat) (due : Nat → Prop) (queued : Prop) : Prop where
  aligned : ∀ u ∈ a.events, period ∣ u
  lastAligned : ∀ t ∈ a.last, period ∣ t
  lastPast : ∀ t ∈ a.last, ∃ n ∈ a.now, t ≤ n
  ahead : ∀ t ∈ a.last, ∀ u ∈ a.events, t < u
  awake : ∀ u, due u → u ∈ a.events
  again : queued → ∃ t ∈ a.last, t + period ∈ a.events
  busy : ∀ u ∈ a.events, due u ∨ queued ∧ ∃ t ∈ a.last, u = t + period

theorem keeps_init (h : ∀ u, ¬ due u) (hq : ¬ queued) : ({} : Agenda).Keeps period due queued where
  aligned _ hu := absurd hu (Finset.notMem_empty _)
  lastAligned _ ht := absurd ht (Option.not_mem_none _)
  lastPast _ ht := absurd ht (Option.not_mem_none _)
  ahead _ ht := absurd ht (Option.not_mem_none _)
  awake u hu := absurd hu (h u)
  again hq' := absurd hq' hq
  busy _ hu := absurd hu (Finset.notMem_empty _)

theorem Keeps.congr (h : a.Keeps period due queued) (hdue : ∀ u, due' u ↔ due u)
    (hq : queued' ↔ queued) : a.Keeps period due' queued' := by
  rwa [show due' = due from funext fun u => propext (hdue u), propext hq]

theorem Keeps.add (h : a.Keeps period due queued) (hp : period ∣ t) (later : a.Later t)
    (hdue : ∀ u, due' u ↔ u = t ∨ due u) : (a.add t).Keeps period due' queued where
  aligned u hu := by
    rcases Finset.mem_insert.mp hu with rfl | hu
    · exact hp
    · exact h.aligned u hu
  lastAligned := h.lastAligned
  lastPast := h.lastPast
  ahead l hl u hu := by
    rcases Finset.mem_insert.mp hu with rfl | hu
    · obtain ⟨n, hn, hln⟩ := h.lastPast l hl
      exact hln.trans_lt (later n hn)
    · exact h.ahead l hl u hu
  awake u hu := by
    rcases (hdue u).mp hu with rfl | hu
    · exact Finset.mem_insert_self _ _
    · exact Finset.mem_insert_of_mem (h.awake u hu)
  again hq := by
    obtain ⟨l, hl, hu⟩ := h.again hq
    exact ⟨l, hl, Finset.mem_insert_of_mem hu⟩
  busy u hu := by
    rcases Finset.mem_insert.mp hu with rfl | hu
    · exact .inl ((hdue u).mpr (.inl rfl))
    · exact (h.busy u hu).imp_left fun hu => (hdue u).mpr (.inr hu)

theorem Keeps.advance (h : a.Keeps period due queued) (next : a.Next t) :
    (a.advance t).Keeps period due queued where
  aligned := h.aligned
  lastAligned := h.lastAligned
  lastPast l hl := by
    obtain ⟨n, hn, hln⟩ := h.lastPast l hl
    exact ⟨t, rfl, hln.trans (next.1 n hn)⟩
  ahead := h.ahead
  awake := h.awake
  again := h.again
  busy := h.busy

theorem Keeps.works (h : a.Keeps period due queued) (ht : t ∈ a.events) : due t ∨ queued :=
  (h.busy t ht).imp_right And.left

/-- Between a run and the wake-up one period later there is no tick of the agenda: when that one
comes, it is the first. -/
theorem Keeps.take (h : a.Keeps period due queued) (ht : t ∈ a.events)
    (next : ∀ u ∈ a.events, t ≤ u) (hdue : ∀ u, due' u ↔ due u ∧ u ≠ t) :
      (a.take t).Keeps period due' False where
  aligned u hu := h.aligned u (Finset.mem_of_mem_erase hu)
  lastAligned l hl := by
    cases hl
    exact h.aligned t ht
  lastPast l hl := by
    cases hl
    exact ⟨t, rfl, le_rfl⟩
  ahead l hl u hu := by
    cases hl
    obtain ⟨hne, hu⟩ := Finset.mem_erase.mp hu
    exact lt_of_le_of_ne (next u hu) hne.symm
  awake u hu := by
    obtain ⟨hu, hne⟩ := (hdue u).mp hu
    exact Finset.mem_erase.mpr ⟨hne, h.awake u hu⟩
  again := False.elim
  busy u hu := by
    obtain ⟨hne, hu⟩ := Finset.mem_erase.mp hu
    rcases h.busy u hu with hd | ⟨-, l, hl, rfl⟩
    · exact .inl ((hdue u).mpr ⟨hd, hne⟩)
    · have small : t - l ≤ period := by
        have := next _ hu
        omega
      have step : period ∣ t - l := Nat.dvd_sub (h.aligned t ht) (h.lastAligned l hl)
      have pos : 0 < t - l := Nat.sub_pos_of_lt (h.ahead l hl t ht)
      have := Nat.le_of_dvd pos step
      omega

theorem Keeps.requeue (h : a.Keeps period due queued) (hp : 0 < period) (ht : a.last = some t)
    (hq : queued') : (a.add (t + period)).Keeps period due queued' where
  aligned u hu := by
    rcases Finset.mem_insert.mp hu with rfl | hu
    · exact Nat.dvd_add (h.lastAligned t ht) (Nat.dvd_refl _)
    · exact h.aligned u hu
  lastAligned := h.lastAligned
  lastPast := h.lastPast
  ahead l hl u hu := by
    rcases Finset.mem_insert.mp hu with rfl | hu
    · cases ht.symm.trans hl
      omega
    · exact h.ahead l hl u hu
  awake u hu := Finset.mem_insert_of_mem (h.awake u hu)
  again _ := ⟨t, ht, Finset.mem_insert_self _ _⟩
  busy u hu := by
    rcases Finset.mem_insert.mp hu with rfl | hu
    · exact .inr ⟨hq, t, ht, rfl⟩
    · rcases h.busy u hu with hd | ⟨-, hl⟩
      · exact .inl hd
      · exact .inr ⟨hq, hl⟩

@[simp] theorem mem_foldl_add {ticks : List Nat} :
    u ∈ (ticks.foldl add a).events ↔ u ∈ ticks ∨ u ∈ a.events := by
  induction ticks generalizing a with
  | nil => simp
  | cons t ticks ih =>
    rw [List.foldl_cons, ih, add, Finset.mem_insert, List.mem_cons]
    exact or_left_comm.trans or_assoc.symm

@[simp] theorem foldl_add_now (ticks : List Nat) : (ticks.foldl add a).now = a.now := by
  induction ticks generalizing a with
  | nil => rfl
  | cons t ticks ih => exact ih

@[simp] theorem foldl_add_last (ticks : List Nat) : (ticks.foldl add a).last = a.last := by
  induction ticks generalizing a with
  | nil => rfl
  | cons t ticks ih => exact ih

/-- Work that is `due` has a wake-up at its tick, and work that is `queued` has one at some tick. -/
structure Covers (a : Agenda) (due : Nat → Prop) (queued : Prop) : Prop where
  due : ∀ u, due u → u ∈ a.events
  queued : queued → a.events.Nonempty

theorem Keeps.covers (h : a.Keeps period due queued) : a.Covers due queued where
  due := h.awake
  queued hq := by
    obtain ⟨t, -, ht⟩ := h.again hq
    exact ⟨t + period, ht⟩

theorem Covers.add (h : a.Covers due queued) (hdue : ∀ u, due' u → u = t ∨ due u) :
    (a.add t).Covers due' queued' where
  due u hu := by
    rcases hdue u hu with rfl | hu
    · exact Finset.mem_insert_self _ _
    · exact Finset.mem_insert_of_mem (h.due u hu)
  queued _ := Finset.insert_nonempty _ _

/-- What a run at `t` does: nothing is left for `t`, and what is left in the queue has the run ask
for ticks to come. -/
structure Turn (t : Nat) (due due' : Nat → Prop) (queued' : Prop) (ticks : List Nat) : Prop where
  due : ∀ u, due' u → due u ∧ u ≠ t
  asks : queued' → ticks ≠ []
  later : ∀ u ∈ ticks, t < u

theorem Covers.turn (h : a.Covers due queued) {ticks : List Nat}
    (turn : Turn t due due' queued' ticks) :
    (ticks.foldl Agenda.add (a.take t)).Covers due' queued' where
  due u hu := by
    obtain ⟨was, other⟩ := turn.due u hu
    exact mem_foldl_add.mpr (.inr (Finset.mem_erase.mpr ⟨other, h.due u was⟩))
  queued hq := by
    obtain ⟨u, hu⟩ := List.exists_mem_of_ne_nil _ (turn.asks hq)
    exact ⟨u, mem_foldl_add.mpr (.inl hu)⟩

end Agenda
