import McSim.TLBConsistency
import McSim.Lib.Lru

/-! A TLB that serves one request at a time.
The pages it holds, by the time of their last use, are the most recently used ones; requests are
served in the order in which they arrive. -/

namespace McSim

open OrderedMap Contract

variable {C : Type} {cfg : TlbConfig} {t page : Nat}

namespace TlbL1

variable {s s' : TlbL1 C}

/-- The pages of a TLB, the last used first -/
def pages (s : TlbL1 C) : List Nat := (s.lru.map (·.2)).reverse

theorem mem_pages : page ∈ s.pages ↔ ∃ last, (last, page) ∈ s.lru := by
  simp [pages]

theorem Sound.mem_pages (h : s.Sound t) (full : s.Full) (page : Nat) :
    page ∈ s.pages ↔ ∃ last, find page s.entries = some last := by
  rw [TlbL1.mem_pages]
  constructor
  · rintro ⟨last, record⟩
    exact ⟨last, h.named _ record⟩
  · rintro ⟨last, found⟩
    exact ⟨last, h.recorded full found⟩

theorem map_erase (h : s.Sound t) (full : s.Full) {last : Nat}
    (found : find page s.entries = some last) :
    (erase last s.lru).map (·.2) = (s.lru.map (·.2)).filter (· ≠ page) := by
  unfold erase
  rw [List.filter_map]
  refine congrArg (List.map _) (List.filter_congr fun e he => ?_)
  have same : e.1 = last ↔ e.2 = page := by
    constructor
    · intro time
      have here := find_of_mem h.orderedLru he
      rw [time, find_of_mem h.orderedLru (h.recorded full found)] at here
      exact (Option.some.inj here).symm
    · intro page'
      have time := h.named e he
      rw [page', found] at time
      exact (Option.some.inj time).symm
  simp [same]

theorem Uses.exact {hit : Bool} (h : s.Sound t) (full : s.Full) (new : ∀ e ∈ s.lru, e.1 < t)
    (uses : Uses cfg t page s s' hit) : (hit = true ↔ page ∈ s.pages) ∧
      s'.pages = Lru.access cfg.numEntries page s.pages ∧
      s'.numMiss = s.numMiss + if hit then 0 else 1 := by
  have there := h.mem_pages full page
  unfold Lru.access
  have length : s.pages.length = s.lru.length := by simp [pages]
  cases uses with
  | @hit last found =>
    have mem : page ∈ s.pages := there.mpr ⟨last, found⟩
    have last' : insert t page (erase last s.lru) = erase last s.lru ++ [(t, page)] :=
      insert_last (fun e he => new e (mem_erase.mp he).1) page
    refine ⟨iff_of_true rfl mem, ?_, rfl⟩
    rw [if_pos mem]
    show ((insert t page (erase last s.lru)).map (·.2)).reverse = _
    rw [last', List.map_append, map_erase h full found, List.reverse_append, ← List.filter_reverse]
    rfl
  | room absent room =>
    have other : page ∉ s.pages := fun mem => by
      obtain ⟨last, found⟩ := there.mp mem
      rw [absent] at found
      cases found
    refine ⟨iff_of_false Bool.false_ne_true other, ?_, rfl⟩
    rw [if_neg other, if_neg (by omega)]
    show ((insert t page s.lru).map (·.2)).reverse = _
    rw [insert_last new, List.map_append, List.reverse_append]
    rfl
  | @full s₁ absent many evicts sound =>
    obtain ⟨oldest, split, -⟩ := evicts.oldest
    have other : page ∉ s.pages := fun mem => by
      obtain ⟨last, found⟩ := there.mp mem
      rw [absent] at found
      cases found
    have rest : s.pages.dropLast = s₁.pages := by
      unfold pages
      rw [split, List.map_cons, List.reverse_cons, List.dropLast_concat]
    refine ⟨iff_of_false Bool.false_ne_true other, ?_, congrArg (· + 1) evicts.numMiss⟩
    rw [if_neg other, if_pos (by omega), rest]
    show ((insert t page s₁.lru).map (·.2)).reverse = _
    rw [insert_last fun e he => new e (split ▸ List.mem_cons_of_mem oldest he), List.map_append,
      List.reverse_append]
    rfl

end TlbL1

namespace TlbSystem

open TlbL1

variable {s s' : TlbSystem C}

def history (cfg : TlbConfig) (served : List (Service C)) : List Nat :=
  (served.map fun e => cfg.page e.lqe).reverse

structure Exact (cfg : TlbConfig) (s : TlbSystem C) : Prop where
  consistent : s.tlb.Consistent cfg
  pages : s.tlb.pages = Lru.recent cfg.numEntries (history cfg s.served)
  misses : s.tlb.numMiss = Lru.misses cfg.numEntries (history cfg s.served)
  hits : ∀ before e after, s.served = before ++ e :: after →
    (e.hit = true ↔ cfg.page e.lqe ∈ Lru.recent cfg.numEntries (history cfg before))

/-- The requests in the order in which they arrive: by their times, and for one time as they came -/
def arrivals (added : List (Nat × Lqe C)) : List (Nat × Lqe C) :=
  added.foldl (fun arrived e => Multimap.insert e.1 e.2 arrived) []

/-- Every request that came is served, or in the queue, or has its tick to come. -/
structure Queued (s : TlbSystem C) : Prop where
  order : ∃ arrived, arrivals s.added = arrived ++ s.tlb.reqEvent ∧
    arrived.map (·.2) = s.served.map (·.lqe) ++ s.tlb.reqQ ∧
    ∀ e ∈ arrived, e.1 ≤ s.agenda.now.getD 0
  ordered : Multimap.Ordered s.tlb.reqEvent
  due : ∀ e ∈ s.tlb.reqEvent, e.1 ∈ s.agenda.events
  again : s.tlb.reqQ ≠ [] → s.agenda.events.Nonempty
  ahead : ∀ u ∈ s.agenda.events, s.agenda.now.getD 0 ≤ u

theorem queued_process {services : List (Service C)} (h : Queued s) (next : s.agenda.Next t)
    (processed : Processed cfg t s s' services) : Queued s' := by
  obtain ⟨arrived, order, parts, past⟩ := h.order
  obtain ⟨queue, events, -, -⟩ := processed.serves.facts
  have before : ∀ e ∈ s.tlb.reqEvent, t ≤ e.1 := fun e he => next.2 e.1 (h.due e he)
  have split := Multimap.front_append_erase h.ordered before
  have events : s'.tlb.reqEvent = Multimap.erase t s.tlb.reqEvent := events
  have queue : s.tlb.reqQ ++ (Multimap.front t s.tlb.reqEvent).map (·.2) =
      services.map (·.lqe) ++ s'.tlb.reqQ := queue
  have now : s'.agenda.now.getD 0 = t := by
    rw [processed.agenda]
    split <;> rfl
  have keeps : ∀ u ∈ s.agenda.events, u ≠ t → u ∈ s'.agenda.events := fun u hu ne => by
    rw [processed.agenda]
    split
    · exact Finset.mem_erase.mpr ⟨ne, hu⟩
    · exact Finset.mem_insert_of_mem (Finset.mem_erase.mpr ⟨ne, hu⟩)
  refine ⟨⟨arrived ++ Multimap.front t s.tlb.reqEvent, ?_, ?_, fun e he => ?_⟩, ?_, fun e he => ?_,
    fun hq => ?_, fun u hu => ?_⟩
  · rw [processed.added, order, events, List.append_assoc, split]
  · rw [processed.served, List.map_append, List.map_append, parts, List.append_assoc,
      List.append_assoc, queue]
  · rw [now]
    rcases List.mem_append.mp he with he | he
    · exact (past e he).trans (now_le next)
    · exact (Multimap.front_key he).le
  · rw [events]
    exact Multimap.erase_ordered h.ordered
  · rw [events] at he
    obtain ⟨he, ne⟩ := Multimap.mem_erase.mp he
    exact keeps e.1 (h.due e he) ne
  · rw [processed.agenda, if_neg hq]
    exact ⟨_, Finset.mem_insert_self _ _⟩
  · rw [now]
    rw [processed.agenda] at hu
    have old : ∀ u ∈ s.agenda.events.erase t, t ≤ u :=
      fun u hu => next.2 u (Finset.mem_of_mem_erase hu)
    split at hu
    · exact old u hu
    · rcases Finset.mem_insert.mp hu with rfl | hu
      · exact Nat.le_add_right _ _
      · exact old u hu

/-- What is still to be done: requests, and ticks -/
def workload (s : TlbSystem C) : Nat :=
  s.tlb.reqQ.length + s.tlb.reqEvent.length + s.agenda.events.card

theorem process_works {services : List (Service C)} (pos : 0 < cfg.speedup) (h : Queued s)
    (ht : t ∈ s.agenda.events) (next : s.agenda.Next t)
    (processed : Processed cfg t s s' services) :
    s'.workload < s.workload := by
  obtain ⟨queue, events, -, -⟩ := processed.serves.facts
  have before : ∀ e ∈ s.tlb.reqEvent, t ≤ e.1 := fun e he => next.2 e.1 (h.due e he)
  have moved := congrArg List.length (Multimap.front_append_erase h.ordered before)
  have queued : (s.tlb.enqueue t).reqQ.length =
      s.tlb.reqQ.length + (Multimap.front t s.tlb.reqEvent).length := by simp [enqueue]
  have left : s'.tlb.reqEvent = Multimap.erase t s.tlb.reqEvent := events
  have parts := congrArg List.length queue
  have length := processed.length
  rw [List.length_append, List.length_map] at parts
  rw [List.length_append] at moved
  unfold workload
  rw [processed.agenda, left]
  split
  · rename_i idle
    have fewer : (s.agenda.take t).events.card + 1 = s.agenda.events.card :=
      Finset.card_erase_add_one ht
    rw [idle] at parts ⊢
    rw [List.length_nil] at parts ⊢
    omega
  · rename_i busy
    have waiting := List.length_pos_of_ne_nil busy
    have added : ((s.agenda.take t).add (t + cfg.processInterval)).events.card ≤
      s.agenda.events.card := by
      have fewer : (s.agenda.take t).events.card + 1 = s.agenda.events.card :=
        Finset.card_erase_add_one ht
      have more : ((s.agenda.take t).add (t + cfg.processInterval)).events.card ≤ _ :=
        Finset.card_insert_le _ _
      omega
    omega

theorem drains (pos : 0 < cfg.numEntries) (serving : 0 < cfg.speedup) (inv : Inv cfg s)
    (h : Queued s) :
    ∃ (ticks : List Nat) (s' : TlbSystem C), follow cfg s (ticks.map .process) = .ok s' ∧
      s'.served.map (·.lqe) = (arrivals s.added).map (·.2) := by
  generalize hn : s.workload = n
  induction n using Nat.strong_induction_on generalizing s with
  | _ n ih =>
    rcases s.agenda.events.eq_empty_or_nonempty with none | nonempty
    · refine ⟨[], s, rfl, ?_⟩
      obtain ⟨arrived, order, parts, -⟩ := h.order
      have idle : s.tlb.reqQ = [] := by
        by_contra busy
        exact Finset.nonempty_iff_ne_empty.mp (h.again busy) none
      have none_due : s.tlb.reqEvent = [] := List.eq_nil_iff_forall_not_mem.mpr fun e he => by
        have due := h.due e he
        rw [none] at due
        exact absurd due (Finset.notMem_empty _)
      rw [order, none_due, List.append_nil, parts, idle, List.append_nil]
    · have first := Finset.min'_mem _ nonempty
      have next : s.agenda.Next (s.agenda.events.min' nonempty) := by
        refine ⟨fun n hn => ?_, fun u hu => Finset.min'_le _ u hu⟩
        have ahead := h.ahead _ first
        rwa [hn] at ahead
      obtain ⟨s₁, services, stepped, processed⟩ := process_processed pos inv next
      have works := process_works serving h first next processed
      obtain ⟨ticks, s', followed, served⟩ := ih s₁.workload (hn ▸ works)
        (processed.inv inv next) (queued_process h next processed) rfl
      refine ⟨s.agenda.events.min' nonempty :: ticks, s', ?_, ?_⟩
      · rw [List.map_cons, follow, if_pos ⟨first, next⟩, stepped]
        exact followed
      · rw [served, processed.added]

structure Logged (cfg : TlbConfig) (s : TlbSystem C) : Prop where
  ticked : ∀ e ∈ s.served, e.time ∈ s.ticks
  answers : Answers cfg s.served s.calls

theorem Processed.logged {services : List (Service C)} (processed : Processed cfg t s s' services)
    (h : Logged cfg s) : Logged cfg s' := by
  obtain ⟨calls, logged, answers⟩ := processed.calls
  obtain ⟨-, -, times, -⟩ := processed.serves.facts
  refine ⟨fun e he => ?_, ?_⟩
  · rw [processed.ticks]
    rw [processed.served] at he
    rcases List.mem_append.mp he with he | he
    · exact List.mem_append_left _ (h.ticked e he)
    · exact List.mem_append_right _ (List.mem_singleton.mpr (times e he))
  · rw [logged, processed.served]
    exact List.rel_append h.answers answers

end TlbSystem
end McSim
