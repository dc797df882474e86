import McSim.Lib.Agenda
import McSim.CacheL2Invariant
import McSim.DirectoryRun

/-! Wake-ups of a second-level cache and of a directory.
Each asks the global queue for the ticks at which its messages can be served, and may be dispatched
at no other tick: a dispatch without a message stops the simulation. Other components add events
behind the tick that is being processed, in any order. -/

namespace McSim

variable {C : Type}

/-- A component and the ticks at which the global queue holds it. -/
structure Scheduled (σ : Type) where
  comp : σ
  agenda : Agenda := {}

/-- What happens to a component. Time goes on when others are dispatched. -/
inductive WakeEvent (C : Type)
  | addReq (time : Nat) (lqe : Lqe C)
  | addRep (time : Nat) (lqe : Lqe C)
  | advance (t : Nat)
  | process (t : Nat)

/-- The global queue dispatches in time order, and events are added behind the current tick. -/
def Timely (interval : Nat) (a : Agenda) : WakeEvent C → Prop
  | .addReq time _ | .addRep time _ => a.Later (ceilByY time interval)
  | .advance t => a.Next t
  | .process t => t ∈ a.events ∧ a.Next t

inductive WakeRun {σ : Type} (interval : Nat)
    (step : Scheduled σ → WakeEvent C → Except Abort (Scheduled σ)) (init : σ) :
    Scheduled σ → Prop
  | init : WakeRun interval step init { comp := init }
  | step {s s'} (e : WakeEvent C) : WakeRun interval step init s → Timely interval s.agenda e →
      step s e = .ok s' → WakeRun interval step init s'

/-- A message that is `due` has a wake-up at its tick and one that is `queued` has one a period
after the last run; a wake-up that comes next does not find the component `idle`. -/
structure Awake (interval : Nat) (due : Nat → Prop) (queued : Prop) (idle : Nat → Prop)
    (a : Agenda) : Prop where
  due : ∀ t, due t → t ∈ a.events
  queued : queued → ∃ t ∈ a.last, t + interval ∈ a.events
  works : ∀ t ∈ a.events, a.Next t → ¬ idle t

namespace CacheL2

def Due (s : CacheL2 C) (t : Nat) : Prop := ∃ lqe, (t, lqe) ∈ s.reqEvent ∨ (t, lqe) ∈ s.repEvent

def Queued (s : CacheL2 C) : Prop := ∃ lqe, lqe ∈ s.repQ ∨ ∃ bank, lqe ∈ s.reqQs bank

/-- `serve` finds neither a reply nor a request: `any_request == false`. -/
def Idle (cfg : L2Config C) (s : CacheL2 C) (t : Nat) : Prop :=
  (s.takeEvents cfg t).repQ = [] ∧ (s.takeEvents cfg t).frontRequests cfg = []

/-- Rounding to a period of 0 is a division by 0. -/
def wakeStep [LinearOrder C] (cfg : L2Config C) (s : Scheduled (CacheL2 C)) :
    WakeEvent C → Except Abort (Scheduled (CacheL2 C))
  | .addReq time lqe =>
    if cfg.processInterval = 0 then .error .undefined
    else .ok {
      comp := s.comp.addReqEvent cfg time lqe
      agenda := s.agenda.add (ceilByY time cfg.processInterval) }
  | .addRep time lqe =>
    if cfg.processInterval = 0 then .error .undefined
    else .ok {
      comp := s.comp.addRepEvent cfg time lqe
      agenda := s.agenda.add (ceilByY time cfg.processInterval) }
  | .advance t => .ok { s with agenda := s.agenda.advance t }
  | .process t => do
    let (comp, _, wakeup) ← s.comp.processEvent cfg t
    return { comp, agenda := wakeup.toList.foldl Agenda.add (s.agenda.take t) }

end CacheL2

namespace Directory

def Due (s : Directory C) (t : Nat) : Prop := ∃ lqe, (t, lqe) ∈ s.reqEvent ∨ (t, lqe) ∈ s.repEvent

def Queued (s : Directory C) : Prop := ∃ lqe, lqe ∈ s.reqQ ∨ lqe ∈ s.repQ

/-- `serve` finds nothing in its queues: the last `else`. -/
def Idle (s : Directory C) (t : Nat) :
    Prop := (s.takeEvents t).repQ = [] ∧ (s.takeEvents t).reqQ = []

def wakeStep [LinearOrder C] (cfg : DirConfig C) (s : Scheduled (Directory C)) :
    WakeEvent C → Except Abort (Scheduled (Directory C))
  | .addReq time lqe =>
    if cfg.processInterval = 0 then .error .undefined
    else .ok {
      comp := s.comp.addReqEvent cfg time lqe
      agenda := s.agenda.add (ceilByY time cfg.processInterval) }
  | .addRep time lqe =>
    if cfg.processInterval = 0 then .error .undefined
    else .ok {
      comp := s.comp.addRepEvent cfg time lqe
      agenda := s.agenda.add (ceilByY time cfg.processInterval) }
  | .advance t => .ok { s with agenda := s.agenda.advance t }
  | .process t => do
    let (comp, effects) ← s.comp.processEvent cfg t
    return { comp, agenda := effects.wakeups.foldl Agenda.add (s.agenda.take t) }

end Directory

namespace CacheL2

variable {cfg : L2Config C} {s s' : CacheL2 C} {t : Nat}

structure Tidy (cfg : L2Config C) (s : CacheL2 C) : Prop where
  reqs : Multimap.Ordered s.reqEvent
  reps : Multimap.Ordered s.repEvent
  banks : ∀ bank, cfg.numBanks ≤ bank → s.reqQs bank = []

structure SameMessages (s s' : CacheL2 C) : Prop where
  reqEvent : s'.reqEvent = s.reqEvent
  repEvent : s'.repEvent = s.repEvent
  repQ : s'.repQ = s.repQ
  reqQs : s'.reqQs = s.reqQs

theorem enqueue_mem {due : List (Lqe C)} {qs : Nat → List (Lqe C)} {bank : Nat} {lqe : Lqe C}
    (h : lqe ∈ qs bank) : lqe ∈ due.foldl (enqueue cfg) qs bank := by
  induction due generalizing qs with
  | nil => exact h
  | cons x due ih =>
    refine ih ?_
    unfold enqueue
    by_cases hb : bank = (x.address >>> cfg.setLsb) % cfg.numBanks
    · subst hb
      rw [Function.update_self]
      exact List.mem_append_left _ h
    · rwa [Function.update_of_ne hb]

theorem enqueue_due {due : List (Lqe C)} {qs : Nat → List (Lqe C)} {lqe : Lqe C} (h : lqe ∈ due) :
    ∃ bank < cfg.numBanks, lqe ∈ due.foldl (enqueue cfg) qs bank := by
  induction due generalizing qs with
  | nil => exact absurd h List.not_mem_nil
  | cons x due ih =>
    rcases List.mem_cons.mp h with rfl | h
    · refine ⟨(lqe.address >>> cfg.setLsb) % cfg.numBanks, Nat.mod_lt _ cfg.numBanks_pos, ?_⟩
      rw [List.foldl_cons]
      refine enqueue_mem ?_
      unfold enqueue
      rw [Function.update_self]
      exact List.mem_append_right _ (List.mem_singleton_self _)
    · exact ih h

theorem enqueue_banks {due : List (Lqe C)} {qs : Nat → List (Lqe C)}
    (h : ∀ bank, cfg.numBanks ≤ bank → qs bank = []) :
    ∀ bank, cfg.numBanks ≤ bank → due.foldl (enqueue cfg) qs bank = [] := by
  induction due generalizing qs with
  | nil => exact h
  | cons x due ih =>
    refine ih fun bank hb => ?_
    have ne : bank ≠ (x.address >>> cfg.setLsb) % cfg.numBanks :=
      (hb.trans_lt' (Nat.mod_lt _ cfg.numBanks_pos)).ne'
    unfold enqueue
    rw [Function.update_of_ne ne]
    exact h bank hb

theorem frontRequests_eq_nil (banks : ∀ bank, cfg.numBanks ≤ bank → s.reqQs bank = []) :
    s.frontRequests cfg = [] ↔ ∀ bank, s.reqQs bank = [] := by
  unfold frontRequests
  rw [List.filterMap_eq_nil_iff]
  constructor
  · intro h bank
    by_cases hb : bank < cfg.numBanks
    · exact List.head?_eq_none_iff.mp (h bank (List.mem_range.mpr hb))
    · exact banks bank (Nat.not_lt.mp hb)
  · intro h bank _
    rw [h bank]
    rfl

theorem queued_iff : s.Queued ↔ s.repQ ≠ [] ∨ ∃ bank, s.reqQs bank ≠ [] := by
  constructor
  · rintro ⟨lqe, h | ⟨bank, h⟩⟩
    · exact .inl (List.ne_nil_of_mem h)
    · exact .inr ⟨bank, List.ne_nil_of_mem h⟩
  · rintro (h | ⟨bank, h⟩)
    · obtain ⟨lqe, hl⟩ := List.exists_mem_of_ne_nil _ h
      exact ⟨lqe, .inl hl⟩
    · obtain ⟨lqe, hl⟩ := List.exists_mem_of_ne_nil _ h
      exact ⟨lqe, .inr ⟨bank, hl⟩⟩

theorem anyQueued_iff (banks : ∀ bank, cfg.numBanks ≤ bank → s.reqQs bank = []) :
    s.anyQueued cfg = true ↔ s.Queued := by
  rw [queued_iff]
  unfold anyQueued
  simp only [Bool.or_eq_true, Bool.not_eq_true', List.isEmpty_eq_false_iff, List.any_eq_true,
    List.mem_range]
  refine or_congr_right ⟨fun ⟨bank, _, h⟩ => ⟨bank, h⟩, fun ⟨bank, h⟩ => ⟨bank, ?_, h⟩⟩
  by_contra hb
  exact h (banks bank (Nat.not_lt.mp hb))

theorem takeEvents_tidy (h : Tidy cfg s) (first : ∀ u, s.Due u → t ≤ u) :
    Tidy cfg (s.takeEvents cfg t) ∧ (∀ u, (s.takeEvents cfg t).Due u ↔ s.Due u ∧ u ≠ t) ∧
      (s.Due t ∨ s.Queued → ¬ s.Idle cfg t) := by
  have reqs : ∀ e ∈ s.reqEvent, t ≤ e.1 := fun e he => first e.1 ⟨e.2, .inl he⟩
  have reps : ∀ e ∈ s.repEvent, t ≤ e.1 := fun e he => first e.1 ⟨e.2, .inr he⟩
  have reqEvent : (s.takeEvents cfg t).reqEvent = Multimap.erase t s.reqEvent :=
    Multimap.dropWhile_eq_erase h.reqs reqs
  have repEvent : (s.takeEvents cfg t).repEvent = Multimap.erase t s.repEvent :=
    Multimap.dropWhile_eq_erase h.reps reps
  have tidy : Tidy cfg (s.takeEvents cfg t) := {
    reqs := reqEvent ▸ Multimap.erase_ordered h.reqs
    reps := repEvent ▸ Multimap.erase_ordered h.reps
    banks := enqueue_banks h.banks }
  refine ⟨tidy, fun u => ?_, ?_⟩
  · unfold Due
    simp only [reqEvent, repEvent, Multimap.mem_erase, ← or_and_right, exists_and_right]
  · rintro work ⟨noRep, noReq⟩
    rw [frontRequests_eq_nil tidy.banks] at noReq
    obtain ⟨noQ, noFront⟩ := List.append_eq_nil_iff.mp noRep
    have waiting : ∀ bank, s.reqQs bank = [] := by
      intro bank
      by_contra hne
      obtain ⟨lqe, hl⟩ := List.exists_mem_of_ne_nil _ hne
      exact List.ne_nil_of_mem (enqueue_mem hl) (noReq bank)
    rcases work with ⟨lqe, hl | hl⟩ | queued
    · have front := List.mem_map_of_mem (f := Prod.snd) (Multimap.mem_front h.reqs reqs hl)
      obtain ⟨bank, -, mem⟩ := enqueue_due front
      exact List.ne_nil_of_mem mem (noReq bank)
    · have front := List.mem_map_of_mem (f := Prod.snd) (Multimap.mem_front h.reps reps hl)
      exact List.ne_nil_of_mem front noFront
    · rcases queued_iff.mp queued with hq | ⟨bank, hq⟩
      · exact hq noQ
      · exact hq (waiting bank)

section Process
variable [LinearOrder C]

theorem processReply_same {lqe : Lqe C} {effects : Effects C}
    (hs : processReply cfg t s lqe = .ok (s', effects)) : SameMessages s s' := by
  unfold processReply at hs
  dsimp only at hs
  split at hs
  · cases hs
  · rename_i victim _
    cases ho : reply cfg t (cfg.setOf lqe.address) (found (holdsForReply (cfg.tagOf lqe.address))
        (s.tags (cfg.setOf lqe.address))) victim lqe s.stats with
    | error e =>
      rw [ho] at hs
      cases hs
    | ok o =>
      rw [ho] at hs
      cases hs
      exact ⟨rfl, rfl, rfl, rfl⟩

theorem processRequest_same {lqe : Lqe C} {effects : Effects C}
    (hs : processRequest cfg t s lqe = .ok (s', effects)) : SameMessages s s' := by
  unfold processRequest at hs
  cases ho : request cfg t (cfg.setOf lqe.address) (found (holdsForRequest (cfg.tagOf lqe.address))
      (s.tags (cfg.setOf lqe.address))) lqe s.stats with
  | error e =>
    simp only [ho, bind, Except.bind] at hs
    cases hs
  | ok o =>
    simp only [ho, bind, Except.bind] at hs
    cases hs
    exact ⟨rfl, rfl, rfl, rfl⟩

theorem processRequests_same {requests : List (Lqe C)} {effects : Effects C}
    (hs : processRequests cfg t s requests = .ok (s', effects)) : SameMessages s s' := by
  induction requests generalizing s effects with
  | nil =>
    cases hs
    exact ⟨rfl, rfl, rfl, rfl⟩
  | cons lqe rest ih =>
    unfold processRequests at hs
    cases hr : processRequest cfg t s lqe with
    | error e =>
      rw [hr] at hs
      cases hs
    | ok r =>
      obtain ⟨s₁, a⟩ := r
      simp only [hr, bind, Except.bind] at hs
      cases hq : processRequests cfg t s₁ rest with
      | error e =>
        rw [hq] at hs
        cases hs
      | ok q =>
        obtain ⟨s₂, b⟩ := q
        rw [hq] at hs
        cases hs
        have one := processRequest_same hr
        have others := ih hq
        exact ⟨others.reqEvent.trans one.reqEvent, others.repEvent.trans one.repEvent,
          others.repQ.trans one.repQ, others.reqQs.trans one.reqQs⟩

theorem serve_messages {effects : Effects C} (hs : serve cfg t s = .ok (s', effects)) :
    s'.reqEvent = s.reqEvent ∧ s'.repEvent = s.repEvent ∧
      ∀ bank, s.reqQs bank = [] → s'.reqQs bank = [] := by
  unfold serve at hs
  split at hs
  · have same := processReply_same hs
    exact ⟨same.reqEvent, same.repEvent, fun bank h => (congrFun same.reqQs bank).trans h⟩
  · split at hs
    · cases hs
    · have same := processRequests_same hs
      refine ⟨same.reqEvent, same.repEvent, fun bank h => (congrFun same.reqQs bank).trans ?_⟩
      show (s.reqQs bank).tail = []
      rw [h]
      rfl

structure Wakes (cfg : L2Config C) (s : Scheduled (CacheL2 C)) : Prop where
  tidy : Tidy cfg s.comp
  pos : s.agenda.events ≠ ∅ → 0 < cfg.processInterval
  keeps : s.agenda.Keeps cfg.processInterval s.comp.Due s.comp.Queued

theorem Wakes.process {s s' : Scheduled (CacheL2 C)} (h : Wakes cfg s) (ht : t ∈ s.agenda.events)
    (next : s.agenda.Next t) (hs : wakeStep cfg s (.process t) = .ok s') : Wakes cfg s' := by
  have pos := h.pos (Finset.ne_empty_of_mem ht)
  obtain ⟨tidy, due, -⟩ := takeEvents_tidy (t := t) h.tidy
    fun u hu => next.2 u (h.keeps.awake u hu)
  simp only [wakeStep, processEvent] at hs
  cases hr : serve cfg t (s.comp.takeEvents cfg t) with
  | error e =>
    rw [hr] at hs
    cases hs
  | ok r =>
    obtain ⟨s₁, effects⟩ := r
    rw [hr] at hs
    cases hs
    obtain ⟨reqEvent, repEvent, banks⟩ := serve_messages hr
    have tidy₁ : Tidy cfg s₁ := ⟨reqEvent ▸ tidy.reqs, repEvent ▸ tidy.reps,
      fun bank hb => banks bank (tidy.banks bank hb)⟩
    have due₁ : ∀ u, s₁.Due u ↔ s.comp.Due u ∧ u ≠ t := by
      intro u
      rw [← due u]
      unfold Due
      rw [reqEvent, repEvent]
    have taken := h.keeps.take ht next.2 due₁
    by_cases queued : s₁.anyQueued cfg = true
    · have requeued := taken.requeue pos rfl ((anyQueued_iff tidy₁.banks).mp queued)
      refine ⟨tidy₁, fun _ => pos, ?_⟩
      simp only [if_pos queued]
      exact requeued
    · refine ⟨tidy₁, fun _ => pos, ?_⟩
      simp only [if_neg queued]
      refine taken.congr (fun _ => Iff.rfl) (iff_false_intro fun hq => queued ?_)
      exact (anyQueued_iff tidy₁.banks).mpr hq

theorem Wakes.step {s s' : Scheduled (CacheL2 C)} (h : Wakes cfg s) {e : WakeEvent C}
    (timely : Timely cfg.processInterval s.agenda e) (hs : wakeStep cfg s e = .ok s') :
    Wakes cfg s' := by
  have aligned := fun time => dvd_ceilByY time cfg.processInterval
  cases e with
  | addReq time lqe =>
    simp only [wakeStep] at hs
    split at hs
    · cases hs
    · rename_i pos
      cases hs
      refine ⟨{ h.tidy with reqs := Multimap.insert_ordered h.tidy.reqs },
        fun _ => Nat.pos_of_ne_zero pos, h.keeps.add (aligned time) timely fun u => ?_⟩
      simp only [Due, addReqEvent, Multimap.mem_insert, Prod.mk.injEq]
      grind
  | addRep time lqe =>
    simp only [wakeStep] at hs
    split at hs
    · cases hs
    · rename_i pos
      cases hs
      refine ⟨{ h.tidy with reps := Multimap.insert_ordered h.tidy.reps },
        fun _ => Nat.pos_of_ne_zero pos, h.keeps.add (aligned time) timely fun u => ?_⟩
      simp only [Due, addRepEvent, Multimap.mem_insert, Prod.mk.injEq]
      grind
  | advance t =>
    cases hs
    exact ⟨h.tidy, h.pos, h.keeps.advance timely⟩
  | process t => exact h.process timely.1 timely.2 hs

theorem run_wakes {numWays : Nat} {s : Scheduled (CacheL2 C)}
    (h : WakeRun cfg.processInterval (wakeStep cfg) (init numWays) s) : Wakes cfg s := by
  induction h with
  | init =>
    refine ⟨⟨Multimap.ordered_nil, Multimap.ordered_nil, fun _ _ => rfl⟩,
      fun ne => absurd rfl ne, Agenda.keeps_init ?_ ?_⟩
    · rintro u ⟨lqe, h | h⟩
      · exact List.not_mem_nil h
      · exact List.not_mem_nil h
    · rintro ⟨lqe, h | ⟨bank, h⟩⟩
      · exact List.not_mem_nil h
      · exact List.not_mem_nil h
  | step e _ timely hs ih => exact ih.step timely hs

omit [LinearOrder C] in
theorem Wakes.awake {s : Scheduled (CacheL2 C)} (h : Wakes cfg s) :
    Awake cfg.processInterval s.comp.Due s.comp.Queued (s.comp.Idle cfg) s.agenda where
  due := h.keeps.awake
  queued := h.keeps.again
  works t ht next := by
    obtain ⟨-, -, works⟩ := takeEvents_tidy (t := t) h.tidy
      fun u hu => next.2 u (h.keeps.awake u hu)
    exact works (h.keeps.works ht)

end Process
end CacheL2

namespace Directory

structure SameMessages (s s' : Directory C) : Prop where
  reqEvent : s'.reqEvent = s.reqEvent
  repEvent : s'.repEvent = s.repEvent
  reqQ : s'.reqQ = s.reqQ
  repQ : s'.repQ = s.repQ

/-- A directory may also put one message back into its own maps, for a later tick. -/
inductive Settles (cfg : DirConfig C) (t : Nat) (s : Directory C) : Directory C → List Nat → Prop
  | quiet {s'} : SameMessages s s' → Settles cfg t s s' []
  | retry {s₁ lqe t'} : SameMessages s s₁ → t < t' →
      Settles cfg t s (s₁.addRepEvent cfg t' lqe) [ceilByY t' cfg.processInterval]

variable {cfg : DirConfig C} {s s' : Directory C} {t : Nat}

def Stage.Settles (cfg : DirConfig C) (t : Nat) (s : Directory C) : Stage C → Prop
  | .stop s' effects => Directory.Settles cfg t s s' effects.wakeups
  | .go s' _ _ _ => SameMessages s s'

theorem cacheOnReply_settles (pos : 0 < cfg.processInterval) (e : DirEntry C) (lqe : Lqe C) :
    (cacheOnReply cfg t s e lqe).Settles cfg t s := by
  unfold cacheOnReply
  dsimp only
  split
  · exact ⟨rfl, rfl, rfl, rfl⟩
  · split
    · split
      · exact .quiet ⟨rfl, rfl, rfl, rfl⟩
      · split
        · refine .retry ⟨rfl, rfl, rfl, rfl⟩ ?_
          omega
        · exact ⟨rfl, rfl, rfl, rfl⟩
    · split
      · split
        · refine .retry ⟨rfl, rfl, rfl, rfl⟩ ?_
          omega
        · exact ⟨rfl, rfl, rfl, rfl⟩
      · exact ⟨rfl, rfl, rfl, rfl⟩

theorem SameMessages.trans {s₁ : Directory C} (h : SameMessages s s₁) (h' : SameMessages s₁ s') :
    SameMessages s s' :=
  ⟨h'.reqEvent.trans h.reqEvent, h'.repEvent.trans h.repEvent, h'.reqQ.trans h.reqQ,
    h'.repQ.trans h.repQ⟩

theorem apply_same (line : Nat) (o : Outcome C) : SameMessages s (s.apply cfg line o) := by
  unfold apply
  dsimp only
  split <;> exact ⟨rfl, rfl, rfl, rfl⟩

section Process
variable [LinearOrder C]

theorem serveReply_settles {s₁ : Directory C} (h : SameMessages s s₁) {lqe : Lqe C}
    {calls : List (Call C)} {effects : Effects C}
    (hs : serveReply cfg t s₁ lqe calls = .ok (s', effects)) :
    Settles cfg t s s' effects.wakeups := by
  unfold serveReply at hs
  cases ho : reply cfg t (s₁.dir (cfg.lineOf lqe.address)) lqe s₁.stats with
  | error e =>
    rw [ho] at hs
    cases hs
  | ok o =>
    rw [ho] at hs
    cases hs
    exact .quiet (h.trans (apply_same _ o))

theorem processReply_settles (pos : 0 < cfg.processInterval) {lqe : Lqe C} {effects : Effects C}
    (hs : processReply cfg t s lqe = .ok (s', effects)) :
    Settles cfg t s s' effects.wakeups := by
  have same : SameMessages s s := ⟨rfl, rfl, rfl, rfl⟩
  unfold processReply at hs
  split at hs
  · exact serveReply_settles same hs
  · rename_i e _
    split at hs
    · have stage := cacheOnReply_settles (t := t) (s := s) pos e lqe
      split at hs
      · rename_i stopped
        cases hs
        rw [stopped] at stage
        exact stage
      · rename_i went
        rw [went] at stage
        exact serveReply_settles stage hs
    · exact serveReply_settles same hs

theorem refuse_same {s₁ : Directory C} {lqe : Lqe C} {stage : Stage C}
    (hs : refuse cfg t s₁ lqe = .ok stage) (h : SameMessages s s₁) : stage.Settles cfg t s := by
  unfold refuse at hs
  cases hc : addEventToULpp cfg t { lqe with type := .nack } false with
  | error e =>
    rw [hc] at hs
    cases hs
  | ok call =>
    rw [hc] at hs
    cases hs
    exact .quiet ⟨h.reqEvent, h.repEvent, h.reqQ, h.repQ⟩

theorem cacheOnRequest_settles {lqe : Lqe C} {stage : Stage C}
    (hs : cacheOnRequest cfg t s lqe = .ok stage) : stage.Settles cfg t s := by
  unfold cacheOnRequest at hs
  split at hs
  · unfold cacheOnNew at hs
    dsimp only at hs
    split at hs
    · cases hs
      exact ⟨rfl, rfl, rfl, rfl⟩
    · split at hs
      · split at hs
        · exact refuse_same hs ⟨rfl, rfl, rfl, rfl⟩
        · cases hs
          exact ⟨rfl, rfl, rfl, rfl⟩
      · cases hs
        exact ⟨rfl, rfl, rfl, rfl⟩
  · unfold cacheOnFound at hs
    dsimp only at hs
    split at hs
    · cases hs
      exact ⟨rfl, rfl, rfl, rfl⟩
    · split at hs
      · split at hs
        · split at hs
          · cases hs
          · cases hs
            exact ⟨rfl, rfl, rfl, rfl⟩
        · split at hs
          · exact refuse_same hs ⟨rfl, rfl, rfl, rfl⟩
          · cases hs
            exact ⟨rfl, rfl, rfl, rfl⟩
      · split at hs
        · cases hs
        · split at hs
          · split at hs
            · exact refuse_same hs ⟨rfl, rfl, rfl, rfl⟩
            · cases hs
              exact .quiet ⟨rfl, rfl, rfl, rfl⟩
          · cases hs
            exact .quiet ⟨rfl, rfl, rfl, rfl⟩

theorem processRequest_settles {lqe : Lqe C} {effects : Effects C}
    (hs : processRequest cfg t s lqe = .ok (s', effects)) :
    Settles cfg t s s' effects.wakeups := by
  unfold processRequest at hs
  cases hstage : cacheOnRequest cfg t s lqe with
  | error e =>
    rw [hstage] at hs
    cases hs
  | ok stage =>
    have settles := cacheOnRequest_settles hstage
    simp only [hstage, bind, Except.bind] at hs
    cases stage with
    | stop s₁ effects₁ =>
      cases hs
      exact settles
    | go s₁ lqe₁ calls deleted =>
      dsimp only at hs
      unfold serveRequest at hs
      cases ho : request cfg t (s₁.dir (cfg.lineOf lqe₁.address)) lqe₁ s₁.stats with
      | error e =>
        rw [ho] at hs
        cases hs
      | ok o =>
        simp only [ho, bind, Except.bind] at hs
        split at hs
        · cases hs
        · cases hs
          exact .quiet (SameMessages.trans settles (apply_same _ o))

theorem serve_settles (pos : 0 < cfg.processInterval) {effects : Effects C}
    (hs : serve cfg t s = .ok (s', effects)) :
    ∃ s₁ wakeups, s₁.reqEvent = s.reqEvent ∧ s₁.repEvent = s.repEvent ∧
      Settles cfg t s₁ s' wakeups ∧
      effects.wakeups =
        if s₁.repQ = [] ∧ s₁.reqQ = [] then wakeups else (t + cfg.processInterval) :: wakeups := by
  have asked : ∀ (s₁ : Directory C) (r : Directory C × Effects C),
      (if (s₁.repQ.isEmpty && s₁.reqQ.isEmpty) = true then r
        else (r.1, { r.2 with wakeups := (t + cfg.processInterval) :: r.2.wakeups })) =
        (s', effects) → s' = r.1 ∧ effects.wakeups = if s₁.repQ = [] ∧ s₁.reqQ = [] then r.2.wakeups
          else (t + cfg.processInterval) :: r.2.wakeups := by
    intro s₁ r hr
    simp only [Bool.and_eq_true, List.isEmpty_iff] at hr
    split at hr
    · rename_i none
      cases hr
      exact ⟨rfl, (if_pos none).symm⟩
    · rename_i some
      cases hr
      exact ⟨rfl, (if_neg some).symm⟩
  unfold serve at hs
  dsimp only at hs
  split at hs
  · rename_i lqe repQ hq
    cases hr : processReply cfg t { s with repQ } lqe with
    | error e =>
      rw [hr] at hs
      cases hs
    | ok r =>
      rw [hr] at hs
      obtain ⟨rfl, wakeups⟩ := asked { s with repQ } r (Except.ok.inj hs)
      exact ⟨{ s with repQ }, r.2.wakeups, rfl, rfl, processReply_settles pos hr, wakeups⟩
  · rename_i lqe reqQ _ hq
    cases hr : processRequest cfg t { s with reqQ } lqe with
    | error e =>
      rw [hr] at hs
      cases hs
    | ok r =>
      rw [hr] at hs
      obtain ⟨rfl, wakeups⟩ := asked { s with reqQ } r (Except.ok.inj hs)
      exact ⟨{ s with reqQ }, r.2.wakeups, rfl, rfl, processRequest_settles hr, wakeups⟩
  · cases hs

end Process

theorem queued_iff : s.Queued ↔ ¬ (s.repQ = [] ∧ s.reqQ = []) := by
  constructor
  · rintro ⟨lqe, h | h⟩ ⟨noRep, noReq⟩
    · exact List.ne_nil_of_mem h noReq
    · exact List.ne_nil_of_mem h noRep
  · intro h
    by_contra none
    refine h ⟨?_, ?_⟩
    · exact List.eq_nil_iff_forall_not_mem.mpr fun lqe hl => none ⟨lqe, .inr hl⟩
    · exact List.eq_nil_iff_forall_not_mem.mpr fun lqe hl => none ⟨lqe, .inl hl⟩

theorem addReqEvent_due (time : Nat) (lqe : Lqe C) (u : Nat) :
    (s.addReqEvent cfg time lqe).Due u ↔ u = ceilByY time cfg.processInterval ∨ s.Due u := by
  simp only [Due, addReqEvent, Multimap.mem_insert, Prod.mk.injEq]
  grind

theorem addRepEvent_due (time : Nat) (lqe : Lqe C) (u : Nat) :
    (s.addRepEvent cfg time lqe).Due u ↔ u = ceilByY time cfg.processInterval ∨ s.Due u := by
  unfold addRepEvent
  split
  · exact addReqEvent_due time lqe u
  · simp only [Due, Multimap.mem_insert, Prod.mk.injEq]
    grind

theorem addRepEvent_queued (time : Nat) (lqe : Lqe C) :
    (s.addRepEvent cfg time lqe).Queued ↔ s.Queued := by
  unfold addRepEvent
  split <;> exact Iff.rfl

structure Tidy (s : Directory C) : Prop where
  reqs : Multimap.Ordered s.reqEvent
  reps : Multimap.Ordered s.repEvent

theorem Tidy.addReqEvent (h : Tidy s) (time : Nat) (lqe : Lqe C) :
    Tidy (s.addReqEvent cfg time lqe) := ⟨Multimap.insert_ordered h.reqs, h.reps⟩

theorem Tidy.addRepEvent (h : Tidy s) (time : Nat) (lqe : Lqe C) :
    Tidy (s.addRepEvent cfg time lqe) := by
  unfold Directory.addRepEvent
  split
  · exact h.addReqEvent time lqe
  · exact ⟨h.reqs, Multimap.insert_ordered h.reps⟩

theorem takeEvents_tidy (h : Tidy s) (first : ∀ u, s.Due u → t ≤ u) :
    Tidy (s.takeEvents t) ∧ (∀ u, (s.takeEvents t).Due u ↔ s.Due u ∧ u ≠ t) ∧
      (s.Due t ∨ s.Queued → ¬ s.Idle t) := by
  have reqs : ∀ e ∈ s.reqEvent, t ≤ e.1 := fun e he => first e.1 ⟨e.2, .inl he⟩
  have reps : ∀ e ∈ s.repEvent, t ≤ e.1 := fun e he => first e.1 ⟨e.2, .inr he⟩
  have reqEvent : (s.takeEvents t).reqEvent = Multimap.erase t s.reqEvent :=
    Multimap.dropWhile_eq_erase h.reqs reqs
  have repEvent : (s.takeEvents t).repEvent = Multimap.erase t s.repEvent :=
    Multimap.dropWhile_eq_erase h.reps reps
  refine ⟨⟨reqEvent ▸ Multimap.erase_ordered h.reqs, repEvent ▸ Multimap.erase_ordered h.reps⟩,
    fun u => ?_, ?_⟩
  · unfold Due
    simp only [reqEvent, repEvent, Multimap.mem_erase, ← or_and_right, exists_and_right]
  · rintro work ⟨noRep, noReq⟩
    obtain ⟨noRepQ, noRepFront⟩ := List.append_eq_nil_iff.mp noRep
    obtain ⟨noReqQ, noReqFront⟩ := List.append_eq_nil_iff.mp noReq
    rcases work with ⟨lqe, hl | hl⟩ | queued
    · have front := List.mem_map_of_mem (f := Prod.snd) (Multimap.mem_front h.reqs reqs hl)
      exact List.ne_nil_of_mem front noReqFront
    · have front := List.mem_map_of_mem (f := Prod.snd) (Multimap.mem_front h.reps reps hl)
      exact List.ne_nil_of_mem front noRepFront
    · exact queued_iff.mp queued ⟨noRepQ, noReqQ⟩

structure Wakes (cfg : DirConfig C) (s : Scheduled (Directory C)) : Prop where
  tidy : Tidy s.comp
  pos : s.agenda.events ≠ ∅ → 0 < cfg.processInterval
  keeps : s.agenda.Keeps cfg.processInterval s.comp.Due s.comp.Queued

theorem Settles.keeps {a : Agenda} {wakeups : List Nat} (hs : Settles cfg t s s' wakeups)
    (pos : 0 < cfg.processInterval) (tidy : Tidy s) (h : a.Keeps cfg.processInterval s.Due s.Queued)
    (now : a.now = some t) :
    Tidy s' ∧ (wakeups.foldl Agenda.add a).Keeps cfg.processInterval s'.Due s'.Queued := by
  cases hs with
  | quiet same =>
    refine ⟨⟨same.reqEvent ▸ tidy.reqs, same.repEvent ▸ tidy.reps⟩, h.congr (fun u => ?_) ?_⟩
    · unfold Due
      rw [same.reqEvent, same.repEvent]
    · unfold Queued
      rw [same.reqQ, same.repQ]
  | retry same later =>
    rename_i s₁ lqe t'
    have tidy₁ : Tidy s₁ := ⟨same.reqEvent ▸ tidy.reqs, same.repEvent ▸ tidy.reps⟩
    have behind : a.Later (ceilByY t' cfg.processInterval) := by
      intro n hn
      cases now.symm.trans hn
      exact later.trans_le (le_ceilByY pos)
    refine ⟨tidy₁.addRepEvent t' lqe, ?_⟩
    refine (h.add (dvd_ceilByY _ _) behind fun u => ?_).congr (fun _ => Iff.rfl) ?_
    · rw [addRepEvent_due]
      unfold Due
      rw [same.reqEvent, same.repEvent]
    · rw [addRepEvent_queued]
      unfold Queued
      rw [same.reqQ, same.repQ]

section Process
variable [LinearOrder C]

theorem Wakes.process {s s' : Scheduled (Directory C)} (h : Wakes cfg s) (ht : t ∈ s.agenda.events)
    (next : s.agenda.Next t) (hs : wakeStep cfg s (.process t) = .ok s') : Wakes cfg s' := by
  have pos := h.pos (Finset.ne_empty_of_mem ht)
  obtain ⟨tidy, due, -⟩ := takeEvents_tidy (t := t) h.tidy
    fun u hu => next.2 u (h.keeps.awake u hu)
  simp only [wakeStep, processEvent] at hs
  cases hr : serve cfg t (s.comp.takeEvents t) with
  | error e =>
    rw [hr] at hs
    cases hs
  | ok r =>
    obtain ⟨s₂, effects⟩ := r
    rw [hr] at hs
    cases hs
    obtain ⟨s₁, wakeups, reqEvent, repEvent, settles, asked⟩ := serve_settles pos hr
    have tidy₁ : Tidy s₁ := ⟨reqEvent ▸ tidy.reqs, repEvent ▸ tidy.reps⟩
    have due₁ : ∀ u, s₁.Due u ↔ s.comp.Due u ∧ u ≠ t := by
      intro u
      rw [← due u]
      unfold Due
      rw [reqEvent, repEvent]
    have taken := h.keeps.take ht next.2 due₁
    simp only [asked]
    split
    · rename_i none
      have kept := taken.congr (fun _ => Iff.rfl)
        (iff_false_intro fun hq => queued_iff.mp hq none)
      obtain ⟨tidy₂, keeps⟩ := settles.keeps pos tidy₁ kept rfl
      exact ⟨tidy₂, fun _ => pos, keeps⟩
    · rename_i some
      have requeued := taken.requeue pos rfl (queued_iff.mpr some)
      obtain ⟨tidy₂, keeps⟩ := settles.keeps pos tidy₁ requeued rfl
      exact ⟨tidy₂, fun _ => pos, keeps⟩

theorem Wakes.step {s s' : Scheduled (Directory C)} (h : Wakes cfg s) {e : WakeEvent C}
    (timely : Timely cfg.processInterval s.agenda e) (hs : wakeStep cfg s e = .ok s') :
    Wakes cfg s' := by
  have aligned := fun time => dvd_ceilByY time cfg.processInterval
  cases e with
  | addReq time lqe =>
    simp only [wakeStep] at hs
    split at hs
    · cases hs
    · rename_i pos
      cases hs
      exact ⟨h.tidy.addReqEvent time lqe, fun _ => Nat.pos_of_ne_zero pos,
        h.keeps.add (aligned time) timely (addReqEvent_due time lqe)⟩
  | addRep time lqe =>
    simp only [wakeStep] at hs
    split at hs
    · cases hs
    · rename_i pos
      cases hs
      exact ⟨h.tidy.addRepEvent time lqe, fun _ => Nat.pos_of_ne_zero pos,
        (h.keeps.add (aligned time) timely (addRepEvent_due time lqe)).congr (fun _ => Iff.rfl)
          (addRepEvent_queued time lqe)⟩
  | advance t =>
    cases hs
    exact ⟨h.tidy, h.pos, h.keeps.advance timely⟩
  | process t => exact h.process timely.1 timely.2 hs

theorem run_wakes {s : Scheduled (Directory C)}
    (h : WakeRun cfg.processInterval (wakeStep cfg) {} s) : Wakes cfg s := by
  induction h with
  | init =>
    refine ⟨⟨Multimap.ordered_nil, Multimap.ordered_nil⟩, fun ne => absurd rfl ne,
      Agenda.keeps_init ?_ ?_⟩
    · rintro u ⟨lqe, h | h⟩
      · exact List.not_mem_nil h
      · exact List.not_mem_nil h
    · rintro ⟨lqe, h | h⟩
      · exact List.not_mem_nil h
      · exact List.not_mem_nil h
  | step e _ timely hs ih => exact ih.step timely hs

end Process

theorem Wakes.awake {s : Scheduled (Directory C)} (h : Wakes cfg s) :
    Awake cfg.processInterval s.comp.Due s.comp.Queued s.comp.Idle s.agenda where
  due := h.keeps.awake
  queued := h.keeps.again
  works t ht next := by
    obtain ⟨-, -, works⟩ := takeEvents_tidy (t := t) h.tidy
      fun u hu => next.2 u (h.keeps.awake u hu)
    exact works (h.keeps.works ht)

end Directory

/-- In every run of a cache and in every run of a directory, no message is stranded and no dispatch
is in vain. -/
theorem run_awake [LinearOrder C] (l2 : L2Config C) (numWays : Nat) (dir : DirConfig C) :
    (∀ s, WakeRun l2.processInterval (CacheL2.wakeStep l2) (CacheL2.init numWays) s →
      Awake l2.processInterval s.comp.Due s.comp.Queued (s.comp.Idle l2) s.agenda) ∧
    ∀ s, WakeRun dir.processInterval (Directory.wakeStep dir) {} s →
      Awake dir.processInterval s.comp.Due s.comp.Queued s.comp.Idle s.agenda :=
  ⟨fun _ h => (CacheL2.run_wakes h).awake, fun _ h => (Directory.run_wakes h).awake⟩

/-- Two messages come to each for one tick, and the second one waits for the next. -/
theorem run_awake_two : ∃ s d,
    WakeRun 20 (CacheL2.wakeStep CacheL2.oneLine) (CacheL2.init 1) s ∧ s.comp.repQ.length = 1 ∧
    WakeRun 10 (Directory.wakeStep Net.fourL2s) {} d ∧ d.comp.reqQ.length = 1 ∧
    Awake 20 s.comp.Due s.comp.Queued (s.comp.Idle CacheL2.oneLine) s.agenda ∧
    Awake 10 d.comp.Due d.comp.Queued d.comp.Idle d.agenda := by
  have early : ∀ t, ({} : Agenda).Later t := fun _ n hn => absurd hn (Option.not_mem_none n)
  have next : ∀ t, Agenda.Next { events := {t} } t := fun t =>
    ⟨fun n hn => absurd hn (Option.not_mem_none n), fun u hu => (Finset.mem_singleton.mp hu).ge⟩
  have s : WakeRun 20 (CacheL2.wakeStep CacheL2.oneLine) (CacheL2.init 1) _ := .init
  have s := s.step (.addRep 20 { path := [1], type := .nop, address := 64 }) (early 20) rfl
  have s := s.step (.addRep 20 { path := [1], type := .nop, address := 128 }) (early 20) rfl
  have s := s.step (.process 20) ⟨by decide, next 20⟩ rfl
  have d : WakeRun 10 (Directory.wakeStep Net.fourL2s) {} _ := .init
  have d := d.step (.addReq 10 (Net.message 1 .read)) (early 10) rfl
  have d := d.step (.addReq 10 (Net.message 2 .read)) (early 10) rfl
  have d := d.step (.process 10) ⟨by decide, next 10⟩ rfl
  obtain ⟨cache, directory⟩ := run_awake CacheL2.oneLine 1 Net.fourL2s
  exact ⟨_, _, s, rfl, d, rfl, cache _ s, directory _ d⟩

end McSim
