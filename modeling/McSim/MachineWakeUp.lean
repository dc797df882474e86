import McSim.Latencies
import McSim.RequestCopies
import McSim.WakeUp

/-! Wake-ups across a machine.
Whatever waits in a component of a machine whose links take time, the global queue holds the
component: at the tick of an event, and at some tick for what is queued. It holds no tick that is
past. -/

namespace McSim

open Contract

variable {C : Type}

namespace CacheL1

variable {r : Routes C} {cfg : L1Config C} {s s' : CacheL1 C} {t : Nat} {c : C} {ways : Nat}

def Due (s : CacheL1 C) : Nat → Prop := Inbox.Due s.reqEvent s.repEvent

def Queued (s : CacheL1 C) : Prop := ∃ lqe, lqe ∈ s.repQ ∨ ∃ bank, lqe ∈ s.reqQs bank

def Tidy (cfg : L1Config C) (s : CacheL1 C) : Prop :=
  Inbox.Tidy cfg.numBanks s.reqEvent s.repEvent s.reqQs

theorem anyQueued_of_queued (tidy : Tidy cfg s) (h : s.Queued) : s.anyQueued cfg = true := by
  unfold anyQueued
  simp only [Bool.or_eq_true, Bool.not_eq_true', List.isEmpty_eq_false_iff, List.any_eq_true,
    List.mem_range]
  obtain ⟨lqe, mem | ⟨bank, mem⟩⟩ := h
  · exact .inl (List.ne_nil_of_mem mem)
  · refine .inr ⟨bank, ?_, List.ne_nil_of_mem mem⟩
    by_contra above
    rw [tidy.queues bank (Nat.not_lt.mp above)] at mem
    cases mem

/-- What is served leaves its queue, and what is kept for later ticks stays. -/
structure Serves (s s' : CacheL1 C) : Prop where
  reqEvent : s'.reqEvent = s.reqEvent
  repEvent : s'.repEvent = s.repEvent
  reqQs : ∀ bank, s.reqQs bank = [] → s'.reqQs bank = []

theorem serves_of_waiting {s₁ : CacheL1 C} (same : s'.waiting = s₁.waiting) (h : Serves s s₁) :
    Serves s s' := by
  simp only [waiting, Prod.mk.injEq] at same
  obtain ⟨req, rep, -, reqQs⟩ := same
  exact ⟨req.trans h.reqEvent, rep.trans h.repEvent,
    fun bank none => by rw [reqQs, h.reqQs bank none]⟩

theorem serve_serves (laid : r.Laid) (hc : r.part c = .cachel1 cfg ways) (h : Orderly r cfg s) :
    Meets (fun _ => True) (fun p => Serves s p.1) (serve cfg t s) := by
  unfold serve
  split
  · rename_i lqe repQ hq
    unfold Orderly at h
    rw [hq] at h
    exact (processReply_sent laid hc h.uncons.1).mono
      (fun p sent => serves_of_waiting sent.1 ⟨rfl, rfl, fun _ none => none⟩) fun _ h => h
  · refine (processRequests_sent laid hc _ (h.heads cfg.numBanks).1).mono
      (fun p sent => serves_of_waiting sent.1 ⟨rfl, rfl, fun bank none => ?_⟩) fun _ h => h
    show (s.reqQs bank).tail = []
    rw [none, List.tail_nil]

theorem processEvent_turn (laid : r.Laid) (hc : r.part c = .cachel1 cfg ways) (paced : cfg.Paced)
    (h : Orderly r cfg s) (tidy : Tidy cfg s) (first : ∀ u, s.Due u → t ≤ u) :
    Meets (fun _ => True) (fun p => Tidy cfg p.1 ∧
      Agenda.Turn t s.Due p.1.Due p.1.Queued p.2.2.toList)
      (processEvent cfg t s) := by
  obtain ⟨taken, due⟩ := Inbox.Tidy.take tidy first
    (fun lqe => Nat.mod_lt (lqe.address >>> cfg.setLsb) cfg.numBanks_pos)
    ((Multimap.front t s.reqEvent).map (·.2))
  have orderly : Orderly r cfg (s.takeEvents cfg t) := Inbox.All.take h t _
  unfold processEvent
  rw [meets_bind]
  refine (serve_serves laid hc orderly).mono (fun p serves => ?_) fun _ h => h
  have tidy' : Tidy cfg p.1 := by
    unfold Tidy
    rw [serves.reqEvent, serves.repEvent]
    exact ⟨taken.reqs, taken.reps, fun bank hb => serves.reqQs bank (taken.queues bank hb)⟩
  refine ⟨tidy', fun u hu => due u ?_, fun queued => ?_, fun u hu => ?_⟩
  · unfold Due at hu
    rwa [serves.reqEvent, serves.repEvent] at hu
  · dsimp only
    rw [if_pos (anyQueued_of_queued tidy' queued)]
    exact List.cons_ne_nil _ _
  · dsimp only at hu
    split at hu
    · rw [List.mem_singleton.mp hu]
      exact later paced.processInterval
    · cases hu

end CacheL1

namespace Crossbar

variable {cfg : CrossbarConfig C} {x : Crossbar C} {t : Nat}

def Due (x : Crossbar C) (u : Nat) : Prop := ∃ cls e, (u, e) ∈ x.events cls

def Queued (x : Crossbar C) : Prop := ∃ port e, e ∈ x.queues port

def Tidy (cfg : CrossbarConfig C) (x : Crossbar C) :
    Prop := ∀ port, cfg.numPorts ≤ port → x.queues port = []

theorem le_align (cfg : CrossbarConfig C) (t : Nat) : t ≤ align cfg t := by
  have rest := Nat.mod_lt t cfg.interval_pos
  unfold align
  split <;> omega

theorem anyQueued_of_mem {qs : Queues C} (tidy : ∀ port, cfg.numPorts ≤ port → qs port = [])
    (h : ∃ port e, e ∈ qs port) : anyQueued cfg qs = true := by
  obtain ⟨port, e, mem⟩ := h
  refine anyQueued_eq_true.mpr ⟨port, ?_, List.ne_nil_of_mem mem⟩
  by_contra above
  rw [tidy port (Nat.not_lt.mp above)] at mem
  cases mem

theorem Adds.due {cls : NocPriority} {source : C} {x' : Crossbar C} {new : List (Lqe C)}
    (h : Adds cfg cls t source x x' new) {u : Nat} (hu : x'.Due u) : u = align cfg t ∨ x.Due u := by
  obtain ⟨cls', e, mem⟩ := hu
  by_cases same : cls' = cls
  · subst same
    rcases List.mem_append.mp (h.perm.mem_iff.mp mem) with mem | mem
    · obtain ⟨lqe, -, eq⟩ := List.mem_map.mp mem
      exact .inl (congrArg Prod.fst eq).symm
    · exact .inr ⟨cls', e, mem⟩
  · rw [h.others cls' same] at mem
    exact .inr ⟨cls', e, mem⟩

theorem processEvent_turn [DecidableEq C] (tidy : Tidy cfg x) :
    Meets (fun _ => True) (fun p => Tidy cfg p.xbar ∧
      Agenda.Turn t x.Due p.xbar.Due p.xbar.Queued p.wakeup.toList) (processEvent cfg x t) := by
  have ports : ∀ cls, Meets (fun _ => True) (fun fs => ∀ f ∈ fs, f.port < cfg.numPorts)
      (flits cfg cls (Multimap.front t (x.events cls))) := fun cls =>
    (flits_arrives (Weight.copies 0) cfg cls _).mono (fun _ arrives => arrives.ports) fun _ h => h
  unfold processEvent
  simp only [meets_bind, meets_pure]
  refine (ports .rep).mono (fun rep repPorts => ?_) fun _ h => h
  refine (ports .crq).mono (fun crq crqPorts => ?_) fun _ h => h
  refine (ports .req).mono (fun req reqPorts => ?_) fun _ h => h
  have exist : ∀ f ∈ rep ++ crq ++ req, f.port < cfg.numPorts := fun f hf => by
    rcases List.mem_append.mp hf with hf | hf
    · exact (List.mem_append.mp hf).elim (repPorts f) (crqPorts f)
    · exact reqPorts f hf
  have serving := serveAll_serving (serving_init cfg ((rep ++ crq ++ req).foldl push x.queues))
    ((List.range cfg.numPorts).map (portIdx cfg x))
  have tidy' : ∀ port, cfg.numPorts ≤ port →
    (((List.range cfg.numPorts).map (portIdx cfg x)).foldl (servePort cfg)
      ⟨(rep ++ crq ++ req).foldl push x.queues, fun _ => false, []⟩).queues port = [] := by
    intro port above
    have sub := serving.sublist port
    rw [pushes_eq_nil _ (tidy port above) fun f hf => ((exist f hf).trans_le above).ne] at sub
    exact List.sublist_nil.mp sub
  refine ⟨tidy', ?_, fun queued => ?_, fun u hu => ?_⟩
  · rintro u ⟨cls, e, mem⟩
    cases cls with
    | rep => exact ⟨⟨.rep, e, (Multimap.mem_erase.mp mem).1⟩, (Multimap.mem_erase.mp mem).2⟩
    | crq => exact ⟨⟨.crq, e, (Multimap.mem_erase.mp mem).1⟩, (Multimap.mem_erase.mp mem).2⟩
    | req => exact ⟨⟨.req, e, (Multimap.mem_erase.mp mem).1⟩, (Multimap.mem_erase.mp mem).2⟩
  · rw [if_pos (anyQueued_of_mem tidy' queued)]
    exact List.cons_ne_nil _ _
  · split at hu
    · rw [List.mem_singleton.mp hu]
      exact later cfg.interval_pos
    · cases hu

end Crossbar

namespace MemoryController

variable {cfg : McConfig C} {s : MemoryController C} {t : Nat}

def Due (s : MemoryController C) (u : Nat) : Prop := ∃ lqe, (u, lqe) ∈ s.reqEvent

def Queued (s : MemoryController C) : Prop := ∃ lqe, lqe ∈ s.reqL

theorem addReqEvent_asks (cfg : McConfig C) (ordered : Multimap.Ordered s.reqEvent) (time : Nat)
    (lqe : Lqe C) :
    Multimap.Ordered (s.addReqEvent cfg time lqe).1.reqEvent ∧
      (s.addReqEvent cfg time lqe).1.reqL = s.reqL ∧
      (∀ u, (s.addReqEvent cfg time lqe).1.Due u → u ∈ (s.addReqEvent cfg time lqe).2.wakeups ∨
        s.Due u) ∧
      ∀ u ∈ (s.addReqEvent cfg time lqe).2.wakeups, time ≤ u := by
  have none : ∀ u ∈ ([] : List Nat), time ≤ u := fun u hu => by cases hu
  unfold addReqEvent
  dsimp only
  split
  · split
    · exact ⟨ordered, rfl, fun _ => .inr, none⟩
    · exact ⟨ordered, rfl, fun _ => .inr, none⟩
  · split
    · split
      · exact ⟨ordered, rfl, fun _ => .inr, none⟩
      · exact ⟨ordered, rfl, fun _ => .inr, none⟩
    · refine ⟨Multimap.insert_ordered ordered, rfl, ?_, fun u hu => ?_⟩
      · rintro u ⟨other, mem⟩
        rcases Multimap.mem_insert.mp mem with same | mem
        · exact .inl (List.mem_singleton.mpr (congrArg Prod.fst same))
        · exact .inr ⟨other, mem⟩
      · rw [List.mem_singleton.mp hu]
        exact le_ceilByY cfg.processInterval_pos

theorem processEvent_turn (ordered : Multimap.Ordered s.reqEvent) (first : ∀ u, s.Due u → t ≤ u) :
    Meets (fun _ => True) (fun p => Multimap.Ordered p.1.reqEvent ∧
      Agenda.Turn t s.Due p.1.Due p.1.Queued p.2.wakeups) (processEvent cfg t s) := by
  refine processEvent_processed.mono (fun p processed => ?_) fun _ _ => trivial
  obtain ⟨s₁, done, prepared, does, -⟩ := processed.does
  have reqEvent : p.1.reqEvent = Multimap.erase t s.reqEvent :=
    ((McSystem.moves_does does).reqEvent.trans prepared.reqEvent).trans
      (Multimap.dropWhile_eq_erase ordered fun e he => first e.1 ⟨e.2, he⟩)
  rw [reqEvent, processed.wakeups]
  refine ⟨Multimap.erase_ordered ordered, ?_, ?_, fun u hu => ?_⟩
  · rintro u ⟨lqe, mem⟩
    rw [reqEvent] at mem
    exact ⟨⟨lqe, (Multimap.mem_erase.mp mem).1⟩, (Multimap.mem_erase.mp mem).2⟩
  · rintro ⟨lqe, mem⟩
    rw [if_neg (List.ne_nil_of_mem mem)]
    exact List.cons_ne_nil _ _
  · split at hu
    · cases hu
    · rw [List.mem_singleton.mp hu]
      exact later cfg.processInterval_pos

end MemoryController

theorem CacheL2.processEvent_idle [LinearOrder C] {cfg : L2Config C} {s : CacheL2 C} {t : Nat}
    (h : s.Idle cfg t) :
    processEvent cfg t s = .error .fatal := by
  have none : serve cfg t (s.takeEvents cfg t) = .error .fatal := by
    unfold serve
    rw [h.1, h.2]
  unfold processEvent
  rw [none]
  rfl

theorem Directory.processEvent_idle [LinearOrder C] {cfg : DirConfig C} {s : Directory C} {t : Nat}
    (h : s.Idle t) :
    processEvent cfg t s = .error .fatal := by
  unfold processEvent serve
  rw [h.1, h.2]

namespace Part

variable {p : Part C} {s : p.State} {a : Agenda} {t u : Nat}

def Due : (p : Part C) → p.State → Nat → Prop
  | core, _ => fun _ => False
  | cachel1 _ _, s => CacheL1.Due s
  | cachel2 _ _, s => CacheL2.Due s
  | directory _, s => Directory.Due s
  | crossbar _, s => Crossbar.Due s
  | memoryController _, s => MemoryController.Due s

def Queued : (p : Part C) → p.State → Prop
  | core, _ => False
  | cachel1 _ _, s => CacheL1.Queued s
  | cachel2 _ _, s => CacheL2.Queued s
  | directory _, s => Directory.Queued s
  | crossbar _, s => Crossbar.Queued s
  | memoryController _, s => MemoryController.Queued s

/-- Woken at this tick, the component would find nothing to do and stop the simulation. -/
def Idle : (p : Part C) → p.State → Nat → Prop
  | cachel2 cfg _, s => CacheL2.Idle cfg s
  | directory _, s => Directory.Idle s
  | _, _ => fun _ => False

theorem idle_fatal [LinearOrder C] (h : p.Idle s t) : p.process t s = .error .fatal := by
  cases p with
  | core | cachel1 | crossbar | memoryController => exact h.elim
  | cachel2 cfg n =>
    have fatal : CacheL2.processEvent cfg t s = .error .fatal := CacheL2.processEvent_idle h
    unfold process
    dsimp only
    rw [fatal]
    rfl
  | directory cfg =>
    have fatal : Directory.processEvent cfg t s = .error .fatal := Directory.processEvent_idle h
    unfold process
    dsimp only
    rw [fatal]
    rfl

def Alert : (p : Part C) → p.State → Agenda → Prop
  | core, _, _ => True
  | cachel1 cfg _, s, a => CacheL1.Tidy cfg s ∧ a.Covers (CacheL1.Due s) (CacheL1.Queued s)
  | cachel2 cfg _, s, a => CacheL2.Wakes cfg ⟨s, a⟩
  | directory cfg, s, a => Directory.Wakes cfg ⟨s, a⟩
  | crossbar cfg, s, a => Crossbar.Tidy cfg s ∧ a.Covers (Crossbar.Due s) (Crossbar.Queued s)
  | memoryController _, s, a => Multimap.Ordered (MemoryController.reqEvent s) ∧
      a.Covers (MemoryController.Due s) (MemoryController.Queued s)

theorem Alert.covers (h : p.Alert s a) : a.Covers (p.Due s) (p.Queued s) := by
  cases p with
  | core => exact ⟨fun _ => False.elim, False.elim⟩
  | cachel1 | crossbar | memoryController => exact h.2
  | cachel2 | directory => exact h.keeps.covers

theorem Alert.busy (h : p.Alert s a) (ht : t ∈ a.events) (next : a.Next t) : ¬ p.Idle s t := by
  cases p with
  | cachel2 => exact h.awake.works t ht next
  | directory => exact h.awake.works t ht next
  | core | cachel1 | crossbar | memoryController => exact id

theorem Alert.advance (h : p.Alert s a) (next : a.Next t) : p.Alert s (a.advance t) := by
  cases p with
  | core => trivial
  | cachel1 | crossbar | memoryController => exact ⟨h.1, h.2.due, h.2.queued⟩
  | cachel2 | directory => exact ⟨h.tidy, h.pos, h.keeps.advance next⟩

theorem alert_init [LinearOrder C] (h : p.isMc ∨ a = {}) : p.Alert p.init a := by
  have empty : ∀ {due : Nat → Prop} {queued : Prop}, (∀ u, ¬ due u) → ¬ queued →
    a.Covers due queued :=
    fun none nothing => ⟨fun u hu => (none u hu).elim, fun hq => (nothing hq).elim⟩
  have quiet : ¬ p.isMc → a = {} := h.resolve_left
  cases p with
  | core => trivial
  | cachel1 cfg n =>
    refine ⟨.empty, empty ?_ ?_⟩
    · rintro u ⟨lqe, mem | mem⟩ <;> cases mem
    · rintro ⟨lqe, mem | ⟨bank, mem⟩⟩ <;> cases mem
  | cachel2 cfg n =>
    obtain rfl := quiet nofun
    exact CacheL2.run_wakes .init
  | directory cfg =>
    obtain rfl := quiet nofun
    exact Directory.run_wakes .init
  | crossbar cfg =>
    refine ⟨fun _ _ => rfl, empty ?_ ?_⟩
    · rintro u ⟨cls, e, mem⟩
      cases cls <;> cases mem
    · rintro ⟨port, e, mem⟩
      cases mem
  | memoryController cfg =>
    refine ⟨Multimap.ordered_nil, empty ?_ ?_⟩
    · rintro u ⟨lqe, mem⟩
      cases mem
    · rintro ⟨lqe, mem⟩
      cases mem

theorem not_isMc_of_isL1 (h : p.isL1) : p.isMc = false := by
  cases p with
  | cachel1 => rfl
  | core | cachel2 | directory | crossbar | memoryController => cases h

/-- What comes for a core or an L1, or for a tick behind the one that is being processed, is put on
the agenda. -/
theorem alert_add [LinearOrder C] (call : Call C) (source : C) (paced : p.Paced) (h : p.Alert s a)
    (time : p = .core ∨ p.isL1 ∨ ∀ n ∈ a.now, n < call.time) :
    Meets (fun _ => True) (fun q => p.Alert q.state (q.ticks.foldl Agenda.add a) ∧
      ∀ u ∈ q.ticks, p ≠ .core ∧ call.time ≤ u) (p.add source call s) := by
  obtain ⟨callee, kind, time', lqe, flits⟩ := call
  dsimp only at time
  have one : ∀ {p : Part C} {u : Nat}, p ≠ .core → time' ≤ u → ∀ v ∈ [u], p ≠ .core ∧ time' ≤ v :=
    fun other le v hv => ⟨other, List.mem_singleton.mp hv ▸ le⟩
  cases p with
  | core => exact ⟨trivial, fun u hu => by cases hu⟩
  | cachel1 cfg n =>
    cases kind with
    | req => exact ⟨⟨h.1.addReq _ _, h.2.add fun u => Inbox.due_insert_req⟩, one nofun le_rfl⟩
    | rep => exact ⟨⟨h.1.addRep _ _, h.2.add fun u => Inbox.due_insert_rep⟩, one nofun le_rfl⟩
    | crq => trivial
  | cachel2 cfg n =>
    have pos := paced.processInterval
    have later : a.Later (ceilByY time' cfg.processInterval) := fun n hn =>
      ((time.resolve_left nofun).resolve_left nofun n hn).trans_le (le_ceilByY pos)
    cases kind with
    | req =>
      refine ⟨h.step (e := .addReq time' lqe) later ?_, one nofun (le_ceilByY pos)⟩
      exact if_neg pos.ne'
    | rep =>
      refine ⟨h.step (e := .addRep time' lqe) later ?_, one nofun (le_ceilByY pos)⟩
      exact if_neg pos.ne'
    | crq => trivial
  | directory cfg =>
    have pos := paced.processInterval
    have later : a.Later (ceilByY time' cfg.processInterval) := fun n hn =>
      ((time.resolve_left nofun).resolve_left nofun n hn).trans_le (le_ceilByY pos)
    cases kind with
    | req =>
      refine ⟨h.step (e := .addReq time' lqe) later ?_, one nofun (le_ceilByY pos)⟩
      exact if_neg pos.ne'
    | rep =>
      refine ⟨h.step (e := .addRep time' lqe) later ?_, one nofun (le_ceilByY pos)⟩
      exact if_neg pos.ne'
    | crq => trivial
  | crossbar cfg =>
    have adds : ∀ cls form, Crossbar.Tidy cfg (Crossbar.addForm cfg cls form s time' lqe source) ∧
        (a.add (Crossbar.align cfg time')).Covers
          (Crossbar.Due (Crossbar.addForm cfg cls form s time' lqe source))
          (Crossbar.Queued (Crossbar.addForm cfg cls form s time' lqe source)) := by
      intro cls form
      obtain ⟨n, adds⟩ := Crossbar.addForm_adds cfg cls form s time' lqe source
      exact ⟨fun port above => by rw [adds.queues]; exact h.1 port above, h.2.add fun u => adds.due⟩
    have aligned := one (p := crossbar cfg) nofun (Crossbar.le_align cfg time')
    cases kind with
    | req => exact ⟨adds .req .single, aligned⟩
    | crq =>
      cases flits with
      | none => exact ⟨adds .crq .single, aligned⟩
      | some n => exact ⟨adds .crq (.flits n), aligned⟩
    | rep =>
      cases flits with
      | none => exact ⟨adds .rep .single, aligned⟩
      | some n => exact ⟨adds .rep (.flits n), aligned⟩
  | memoryController cfg =>
    obtain ⟨ordered, reqL, due, later⟩ := MemoryController.addReqEvent_asks cfg h.1 time' lqe
    have covers : Agenda.Covers
        ((MemoryController.addReqEvent cfg s time' lqe).2.wakeups.foldl Agenda.add a)
        (MemoryController.addReqEvent cfg s time' lqe).1.Due
        (MemoryController.addReqEvent cfg s time' lqe).1.Queued := by
      refine ⟨fun u hu => ?_, fun queued => ?_⟩
      · exact Agenda.mem_foldl_add.mpr ((due u hu).imp_right (h.2.due u))
      · unfold MemoryController.Queued at queued
        rw [reqL] at queued
        obtain ⟨u, hu⟩ := h.2.queued queued
        exact ⟨u, Agenda.mem_foldl_add.mpr (.inr hu)⟩
    cases kind with
    | req | rep => exact ⟨⟨ordered, covers⟩, fun u hu => ⟨nofun, later u hu⟩⟩
    | crq => trivial

theorem alert_process [LinearOrder C] {r : Routes C} {c : C} (laid : r.Laid) (hp : r.part c = p)
    (paced : p.Paced) (orderly : p.Orderly r c s) (h : p.Alert s a) (ht : t ∈ a.events)
    (next : a.Next t) :
    Meets (fun _ => True) (fun q => p.Alert q.state (q.ticks.foldl Agenda.add (a.take t)) ∧
      ∀ u ∈ q.ticks, t < u)
      (p.process t s) := by
  have first : ∀ u, p.Due s u → t ≤ u := fun u hu => next.2 u (h.covers.due u hu)
  -- the agenda of a component with a period tells that its ticks are behind the one that is taken
  have behind : ∀ {period : Nat} {due : Nat → Prop} {queued : Prop} {ticks : List Nat},
      (ticks.foldl Agenda.add (a.take t)).Keeps period due queued → ∀ u ∈ ticks, t < u := by
    intro period due queued ticks keeps u hu
    refine keeps.ahead t ?_ u (Agenda.mem_foldl_add.mpr (.inl hu))
    rw [Agenda.foldl_add_last]
    rfl
  cases p with
  | core => exact ⟨trivial, fun u hu => by cases hu⟩
  | cachel1 cfg n =>
    show Meets _ _ (CacheL1.processEvent cfg t s >>= _)
    rw [meets_bind]
    refine (CacheL1.processEvent_turn laid hp paced orderly h.1 first).mono (fun q turn => ?_)
      fun _ h => h
    exact ⟨⟨turn.1, h.2.turn turn.2⟩, turn.2.later⟩
  | cachel2 cfg n =>
    show Meets _ _ (CacheL2.processEvent cfg t s >>= _)
    cases hs : CacheL2.processEvent cfg t s with
    | error e => trivial
    | ok q =>
      have step : CacheL2.wakeStep cfg ⟨s, a⟩ (.process t) =
          .ok ⟨q.1, q.2.2.toList.foldl Agenda.add (a.take t)⟩ := by
        simp only [CacheL2.wakeStep, hs]
        rfl
      have wakes := CacheL2.Wakes.step h (e := .process t) ⟨ht, next⟩ step
      exact ⟨wakes, behind wakes.keeps⟩
  | directory cfg =>
    show Meets _ _ (Directory.processEvent cfg t s >>= _)
    cases hs : Directory.processEvent cfg t s with
    | error e => trivial
    | ok q =>
      have step : Directory.wakeStep cfg ⟨s, a⟩ (.process t) =
          .ok ⟨q.1, q.2.wakeups.foldl Agenda.add (a.take t)⟩ := by
        simp only [Directory.wakeStep, hs]
        rfl
      have wakes := Directory.Wakes.step h (e := .process t) ⟨ht, next⟩ step
      exact ⟨wakes, behind wakes.keeps⟩
  | crossbar cfg =>
    show Meets _ _ (Crossbar.processEvent cfg s t >>= _)
    rw [meets_bind]
    refine (Crossbar.processEvent_turn h.1).mono (fun q turn => ?_) fun _ h => h
    exact ⟨⟨turn.1, h.2.turn turn.2⟩, turn.2.later⟩
  | memoryController cfg =>
    show Meets _ _ (MemoryController.processEvent cfg t s >>= _)
    rw [meets_bind]
    refine (MemoryController.processEvent_turn h.1 first).mono (fun q turn => ?_) fun _ h => h
    exact ⟨⟨turn.1, h.2.turn turn.2⟩, turn.2.later⟩

end Part

def Machine.Paced (m : Machine C) : Prop := ∀ c, (m.part c).Paced

namespace System

variable [LinearOrder C] {m : Machine C} {home : Nat → C} {s s' : System m} {t : Nat} {c source : C}

/-- Each component has its agenda, and the global queue holds what is on it. -/
structure Attends (s : System m) (a : C → Agenda) : Prop where
  alert : ∀ c, (m.part c).Alert (s.state c) (a c)
  events : ∀ c u, u ∈ (a c).events ↔ s.queue.Mem u c
  now : ∀ c, ∀ n ∈ (a c).now, n ≤ s.queue.currTime
  ordered : GlobalEventQueue.Ordered s.queue.eventQueue
  ahead : ∀ c u, s.queue.Mem u c → s.queue.currTime ≤ u

structure Grown (b : C → Agenda) (s : Midway m) (a : C → Agenda) : Prop where
  alert : ∀ c, (m.part c).Alert (s.state c) (a c)
  events : ∀ c u, u ∈ (a c).events ↔ u ∈ (b c).events ∨ (u, c) ∈ s.added
  now : ∀ c, (a c).now = (b c).now

section Calls
variable (paced : m.Paced) {b : C → Agenda}
include paced

theorem place_grown {s : Midway m} {a : C → Agenda} {call : Call C} (h : Grown b s a)
    (time : m.part call.callee = .core ∨ (m.part call.callee).isL1 ∨
      ∀ n ∈ (b call.callee).now, n < call.time) :
    Meets (fun _ => True) (fun p => (∃ a, Grown b p.1 a) ∧
      (∀ e ∈ p.1.added, e ∈ s.added ∨ m.part call.callee ≠ .core ∧ call.time ≤ e.1) ∧
      ∀ answer ∈ p.2, (m.part call.callee).isMc ∧ call.time < answer.time)
        (place source s call) := by
  rw [← h.now] at time
  have added := Part.alert_add call source (paced call.callee) (h.alert call.callee) time
  have answers := Part.add_later (s := s.state call.callee) call source (paced call.callee)
  unfold place
  rw [meets_bind]
  refine (added.and answers).mono (fun q taken => ?_) fun _ h => h
  obtain ⟨⟨alert, later⟩, answers⟩ := taken
  refine ⟨⟨Function.update a call.callee (q.ticks.foldl Agenda.add (a call.callee)), fun d => ?_,
    fun d u => ?_, fun d => ?_⟩, fun e he => ?_, answers⟩
  · by_cases hd : d = call.callee
    · subst hd
      dsimp only
      rw [Function.update_self, Function.update_self]
      exact alert
    · dsimp only
      rw [Function.update_of_ne hd, Function.update_of_ne hd]
      exact h.alert d
  · have old := h.events d u
    simp only [List.mem_append, List.mem_map, Prod.mk.injEq]
    by_cases hd : d = call.callee
    · subst hd
      rw [Function.update_self, Agenda.mem_foldl_add, old]
      grind
    · rw [Function.update_of_ne hd, old]
      grind
  · by_cases hd : d = call.callee
    · subst hd
      rw [Function.update_self, Agenda.foldl_add_now]
      exact h.now _
    · rw [Function.update_of_ne hd]
      exact h.now d
  · refine (List.mem_append.mp he).imp_right fun mem => ?_
    obtain ⟨u, hu, rfl⟩ := List.mem_map.mp mem
    exact later u hu

/-- While a component runs at `t`, the agendas grow behind `t`. -/
def Booked (b : C → Agenda) (t : Nat) (s : Midway m) :
    Prop := (∃ a, Grown b s a) ∧ ∀ e ∈ s.added, t < e.1

theorem place_booked (now : ∀ d, ∀ n ∈ (b d).now, n ≤ t) {s : Midway m} (h : Booked b t s)
    {call : Call C} (later : m.part call.callee = .core ∨ t < call.time) :
    Meets (fun _ => True) (fun p => Booked b t p.1 ∧ ∀ answer ∈ p.2, t < answer.time)
      (place source s call) := by
  obtain ⟨⟨a, grown⟩, added⟩ := h
  have time : m.part call.callee = .core ∨ (m.part call.callee).isL1 ∨
    ∀ n ∈ (b call.callee).now, n < call.time :=
    later.imp_right fun time => .inr fun n hn => (now call.callee n hn).trans_lt time
  refine (place_grown paced grown time).mono (fun p placed => ?_) fun _ h => h
  obtain ⟨agendas, new, answers⟩ := placed
  refine ⟨⟨agendas, fun e he => ?_⟩, fun answer mem => ?_⟩
  · rcases new e he with old | ⟨other, time⟩
    · exact added e old
    · exact (later.resolve_left other).trans_le time
  · obtain ⟨mc, time⟩ := answers answer mem
    refine (later.resolve_left fun core => ?_).trans time
    rw [core] at mc
    cases mc

theorem placeAll_booked (now : ∀ d, ∀ n ∈ (b d).now, n ≤ t) (calls : List (Call C)) {s : Midway m}
    (h : Booked b t s) (later : ∀ call ∈ calls, t < call.time) :
    Meets (fun _ => True) (Booked b t) (placeAll source s calls) := by
  induction calls generalizing s with
  | nil => exact h
  | cons call calls ih =>
    unfold placeAll
    rw [meets_bind]
    refine (place_booked paced now h (.inr (later call List.mem_cons_self))).mono
      (fun p placed => ?_) fun _ h => h
    exact ih placed.1 fun c hc => later c (List.mem_cons_of_mem call hc)

theorem post_booked (now : ∀ d, ∀ n ∈ (b d).now, n ≤ t) (calls : List (Call C)) {s : Midway m}
    (h : Booked b t s) (later : ∀ call ∈ calls, m.part call.callee = .core ∨ t < call.time) :
    Meets (fun _ => True) (Booked b t) (post source s calls) := by
  induction calls generalizing s with
  | nil => exact h
  | cons call calls ih =>
    unfold post
    rw [meets_bind]
    refine (place_booked paced now h (later call List.mem_cons_self)).mono (fun p placed => ?_)
      fun _ h => h
    dsimp only
    rw [meets_bind]
    refine (placeAll_booked paced now p.2 placed.1 placed.2).mono (fun s₁ answered => ?_)
      fun _ h => h
    exact ih answered fun c hc => later c (List.mem_cons_of_mem call hc)

end Calls

omit [LinearOrder C] in
theorem refreshTicks_isMc {u : Nat} (h : (u, c) ∈ refreshTicks m) : (m.part c).isMc := by
  obtain ⟨mc, hmc, mem⟩ := List.mem_filterMap.mp h
  split at mem
  · rename_i cfg hp
    split at mem
    · cases mem
    · cases mem
      rw [hp]
      rfl
  · cases mem

theorem attends_init (m : Machine C) : ∃ a, Attends (init m) a := by
  have held : ∀ c u, (init m).queue.Mem u c ↔ (u, c) ∈ refreshTicks m := by
    intro c u
    refine GlobalEventQueue.mem_addEvents.trans (or_iff_left ?_)
    rintro ⟨e, mem, -⟩
    cases mem
  refine ⟨fun c => { events := (((refreshTicks m).filter (·.2 = c)).map (·.1)).toFinset },
    fun c => ?_, fun c u => ?_, fun c n hn => ?_, ?_, fun c u hu => ?_⟩
  · refine Part.alert_init ?_
    by_cases none : (refreshTicks m).filter (·.2 = c) = []
    · refine .inr ?_
      rw [none]
      rfl
    · obtain ⟨e, he⟩ := List.exists_mem_of_ne_nil _ none
      obtain ⟨mem, own⟩ := List.mem_filter.mp he
      refine .inl (refreshTicks_isMc (u := e.1) ?_)
      rw [← of_decide_eq_true own]
      exact mem
  · rw [held]
    simp
  · cases hn
  · exact GlobalEventQueue.addEvents_ordered ⟨.nil, fun e he => by cases he⟩
  · rw [show (init m).queue.currTime = 0 from GlobalEventQueue.addEvents_currTime _ _]
    exact Nat.zero_le u

theorem Attends.request {a : C → Agenda} (paced : m.Paced) (h : Attends s a) {cache : C}
    {lqe : Lqe C} (hcache : (m.part cache).isL1) (time : s.queue.currTime ≤ t)
    (step : s.request cache t lqe = .ok s') :
    ∃ a, Attends s' a := by
  have start : Grown a ({ state := s.state } : Midway m) a :=
    ⟨h.alert, fun c u => (or_iff_left (by simp)).symm, fun c => rfl⟩
  have met : Meets (fun _ => True) (fun s' => ∃ a, Attends s' a) (s.request cache t lqe) := by
    unfold System.request
    dsimp only
    unfold post
    simp only [meets_bind]
    refine (place_grown paced start (.inr (.inl hcache))).mono (fun p placed => ?_) fun _ h => h
    obtain ⟨⟨a', grown⟩, new, answers⟩ := placed
    have none : p.2 = [] := by
      refine List.eq_nil_iff_forall_not_mem.mpr fun answer mem => ?_
      have mc : (m.part cache).isMc = true := (answers answer mem).1
      rw [Part.not_isMc_of_isL1 hcache] at mc
      cases mc
    rw [none]
    refine ⟨a', grown.alert, fun c u => ?_, fun c n hn => ?_,
      GlobalEventQueue.addEvents_ordered h.ordered, fun c u hu => ?_⟩
    · rw [grown.events, h.events, GlobalEventQueue.mem_addEvents]
      exact or_comm
    · rw [grown.now] at hn
      dsimp only
      rw [GlobalEventQueue.addEvents_currTime]
      exact h.now c n hn
    · dsimp only at hu ⊢
      rw [GlobalEventQueue.addEvents_currTime]
      rcases GlobalEventQueue.mem_addEvents.mp hu with mem | old
      · rcases new _ mem with old | ⟨-, later⟩
        · cases old
        · exact time.trans later
      · exact h.ahead c u old
  exact met.of_ok step

theorem next_spec (h : s.next = some (t, c)) :
    ∃ set q, s.queue.eventQueue = (t, set) :: q ∧ first set = some c := by
  unfold next at h
  obtain ⟨e, he, found⟩ := Option.bind_eq_some_iff.mp h
  obtain ⟨d, hd, same⟩ := Option.map_eq_some_iff.mp found
  obtain ⟨rfl, rfl⟩ := Prod.mk.inj same
  obtain ⟨q, hq⟩ := List.head?_eq_some_iff.mp he
  exact ⟨e.2, q, hq, hd⟩

theorem next_first {a : C → Agenda} (h : Attends s a) (next : s.next = some (t, c)) :
    t ∈ (a c).events ∧ s.queue.currTime ≤ t ∧ ∀ d, (a d).Next t := by
  obtain ⟨set, q, hq, found⟩ := next_spec next
  have here : s.queue.Mem t c :=
    ⟨(t, set), by rw [hq]; exact List.mem_cons_self, rfl, first_mem found⟩
  have past := h.ahead c t here
  exact ⟨(h.events c t).mpr here, past, fun d => ⟨fun n hn => (h.now d n hn).trans past,
    fun u hu => GlobalEventQueue.le_of_mem h.ordered hq ((h.events d u).mp hu)⟩⟩

theorem Attends.dispatch {issuer : Nat → Option C} {a : C → Agenda}
    (laid : (m.routes home issuer).Laid) (paced : m.Paced)
    (orderly : AllOrderly (m.routes home issuer) s.state) (h : Attends s a)
    (next : s.next = some (t, c)) (step : s.dispatch t c = .ok s') : ∃ a, Attends s' a := by
  obtain ⟨ht, -, firsts⟩ := next_first h next
  obtain ⟨set, rest, hq, found⟩ := next_spec next
  have runs := (Part.alert_process laid rfl (paced c) (orderly c) (h.alert c) ht (firsts c)).and
    (Part.process_later laid rfl (paced c) (orderly c))
  have met : Meets (fun _ => True) (fun s' => ∃ a, Attends s' a) (s.dispatch t c) := by
    unfold System.dispatch
    rw [meets_bind]
    refine runs.mono (fun q ran => ?_) fun _ h => h
    obtain ⟨⟨alert, ticks⟩, calls⟩ := ran
    let b := Function.update (fun d => (a d).advance t) c (q.ticks.foldl Agenda.add ((a c).take t))
    have now : ∀ d, (b d).now = some t := by
      intro d
      by_cases hd : d = c
      · subst hd
        simp [b, Agenda.take]
      · simp [b, hd, Agenda.advance]
    have start : Booked b t ({ state := Function.update s.state c q.state } : Midway m) := by
      refine ⟨⟨b, fun d => ?_, fun d u => (or_iff_left (by simp)).symm, fun d => rfl⟩,
        fun e he => by cases he⟩
      by_cases hd : d = c
      · subst hd
        simp only [b, Function.update_self]
        exact alert
      · simp only [b, Function.update_of_ne hd]
        exact (h.alert d).advance (firsts d)
    rw [meets_bind]
    refine (post_booked paced (fun d n hn => ?_) q.calls start calls).mono (fun mid posted => ?_)
      fun _ h => h
    · rw [now d] at hn
      exact (Option.mem_some_iff.mp hn).ge
    · obtain ⟨⟨a', grown⟩, added⟩ := posted
      have behind : ∀ e ∈ mid.added ++ q.ticks.map fun u => (u, c), t < e.1 := by
        intro e he
        rcases List.mem_append.mp he with he | he
        · exact added e he
        · obtain ⟨u, hu, rfl⟩ := List.mem_map.mp he
          exact ticks u hu
      split
      · rename_i t' c' queue' hd
        obtain ⟨rfl, rfl⟩ := GlobalEventQueue.dispatch_first _ hq found hd
        obtain ⟨ordered, time⟩ := GlobalEventQueue.dispatch_ordered h.ordered hd
        have held : ∀ u d, queue'.Mem u d ↔ (u, d) ∈ mid.added ++ (q.ticks.map fun u => (u, c')) ∨
            s.queue.Mem u d ∧ ¬ (u = t' ∧ d = c') := fun u d =>
          GlobalEventQueue.mem_dispatch h.ordered (fun e he => (behind e he).le)
            (.inr fun own => (behind _ own).ne rfl) hd
        refine ⟨a', grown.alert, fun d u => ?_, fun d n hn => ?_, ordered, fun d u hu => ?_⟩
        · rw [grown.events, held, ← h.events]
          simp only [List.mem_append, List.mem_map, Prod.mk.injEq]
          by_cases hd : d = c'
          · subst hd
            simp only [b, Function.update_self, Agenda.mem_foldl_add, Agenda.take, Finset.mem_erase]
            grind
          · simp only [b, Function.update_of_ne hd, Agenda.advance]
            grind
        · rw [grown.now, now d] at hn
          rw [time]
          exact (Option.mem_some_iff.mp hn).ge
        · rw [time]
          rcases (held u d).mp hu with new | ⟨old, -⟩
          · exact (behind _ new).le
          · exact GlobalEventQueue.le_of_mem h.ordered hq old
      · trivial
      · trivial
  exact met.of_ok step

section Runs
variable {senders : List C} {log : List (Call C)}

theorem Logged.attends (laid : m.Laid home) (paced : m.Paced) (run : Logged m s senders log) :
    ∃ a, Attends s a := by
  induction run with
  | init => exact attends_init m
  | request run hcore hcache time path type step ih =>
    obtain ⟨a, attends⟩ := ih
    exact attends.request paced hcache time step
  | dispatch run next runs step ih =>
    obtain ⟨a, attends⟩ := ih
    exact attends.dispatch (laid.routes _) paced (messages_fit laid run).1 next step

theorem next_eq_none (ordered : GlobalEventQueue.Ordered s.queue.eventQueue) (h : s.next = none)
    (c : C) (u : Nat) :
    ¬ s.queue.Mem u c := by
  rintro ⟨e, mem, -⟩
  obtain ⟨d, q, hq⟩ := List.exists_cons_of_ne_nil (List.ne_nil_of_mem mem)
  have none : first d.2 = none := by
    unfold next at h
    rw [hq] at h
    exact Option.map_eq_none_iff.mp h
  have some := ordered.inhabited d (by rw [hq]; exact List.mem_cons_self)
  exact some.ne_empty (first_eq_none.mp none)

/-- A message that waits for its tick has its component in the global queue for that tick, and a
message in a queue has it there for some tick. Once the global queue is empty, nothing waits
anywhere. -/
theorem nothing_stranded (laid : m.Laid home) (paced : m.Paced) (run : Logged m s senders log) :
    (∀ c u, (m.part c).Due (s.state c) u → s.queue.Mem u c) ∧
      (∀ c, (m.part c).Queued (s.state c) → ∃ u, s.queue.Mem u c) ∧
      (s.next = none → ∀ c, (∀ u, ¬ (m.part c).Due (s.state c) u) ∧
        ¬ (m.part c).Queued (s.state c)) := by
  obtain ⟨a, attends⟩ := run.attends laid paced
  have due : ∀ c u, (m.part c).Due (s.state c) u → s.queue.Mem u c := fun c u hu =>
    (attends.events c u).mp ((attends.alert c).covers.due u hu)
  have queued : ∀ c, (m.part c).Queued (s.state c) → ∃ u, s.queue.Mem u c := fun c hq => by
    obtain ⟨u, hu⟩ := (attends.alert c).covers.queued hq
    exact ⟨u, (attends.events c u).mp hu⟩
  refine ⟨due, queued, fun none c => ⟨fun u hu => ?_, fun hq => ?_⟩⟩
  · exact next_eq_none attends.ordered none c u (due c u hu)
  · obtain ⟨u, hu⟩ := queued c hq
    exact next_eq_none attends.ordered none c u hu

end Runs

theorem twoL1s_paced {numWays : Nat} : (twoL1s numWays 1).Paced := by
  intro c
  match c with
  | 0 | 1 => exact trivial
  | 2 | 3 => exact ⟨Nat.one_pos, Nat.one_pos⟩
  | 4 | 5 => exact ⟨Nat.one_pos, Nat.one_pos, Nat.one_pos, Nat.one_pos⟩
  | 6 => exact Nat.succ_pos 9
  | 7 => exact Nat.one_pos

theorem playReads_queued : ∃ p, playReads 3 = .ok p ∧ CacheL2.reqQs (p.1.state 4) 0 ≠ [] :=
  Meets.result (by decide +kernel)

theorem playReads_done : ∃ p, playReads 11 = .ok p ∧ p.1.next = none :=
  Meets.result (by decide +kernel)

/-- The second read waits in the L2 while the first is served; after the answers nothing is left. -/
theorem nothing_stranded_of_reads :
    (∃ (s : System (twoL1s 1 1)) (log : List (Call (Fin 8))),
      Logged (twoL1s 1 1) s [0, 1] log ∧ CacheL2.Queued (s.state 4) ∧ ∃ u, s.queue.Mem u 4) ∧
    ∃ (s : System (twoL1s 1 1)) (log : List (Call (Fin 8))),
      Logged (twoL1s 1 1) s [0, 1] log ∧ s.next = none ∧
        ∀ c, ¬ ((twoL1s 1 1).part c).Queued (s.state c) := by
  refine ⟨?_, ?_⟩
  · obtain ⟨p, hp, waits⟩ := playReads_queued
    have logged := playReads_logged hp
    obtain ⟨lqe, mem⟩ := List.exists_mem_of_ne_nil _ waits
    have queued : CacheL2.Queued (p.1.state 4) := ⟨lqe, .inr ⟨0, mem⟩⟩
    exact ⟨p.1, p.2, logged, queued,
      (nothing_stranded twoL1s_laid twoL1s_paced logged).2.1 4 queued⟩
  · obtain ⟨p, hp, done⟩ := playReads_done
    have logged := playReads_logged hp
    exact ⟨p.1, p.2, logged, done, fun c =>
      ((nothing_stranded twoL1s_laid twoL1s_paced logged).2.2 done c).2⟩

section Runs
variable {senders : List C} {log : List (Call C)}

/-- Time does not go back, and a second-level cache or a directory that is dispatched has something
to serve. -/
theorem never_idle (laid : m.Laid home) (paced : m.Paced) (run : Logged m s senders log)
    (next : s.next = some (t, c)) : s.queue.currTime ≤ t ∧ ¬ (m.part c).Idle (s.state c) t := by
  obtain ⟨a, attends⟩ := run.attends laid paced
  obtain ⟨ht, past, firsts⟩ := next_first attends next
  exact ⟨past, (attends.alert c).busy ht (firsts c)⟩

end Runs

theorem playReads_second : ∃ p, playReads 3 = .ok p ∧ p.1.next = some (2, 4) :=
  Meets.result (by decide +kernel)

/-- The L2 is dispatched for the read that waits. -/
theorem never_idle_of_reads : ∃ (s : System (twoL1s 1 1)) (log : List (Call (Fin 8))),
    Logged (twoL1s 1 1) s [0, 1] log ∧ s.next = some (2, 4) ∧ s.queue.currTime ≤ 2 ∧
      ¬ CacheL2.Idle l2OfTwo (s.state 4) 2 := by
  obtain ⟨p, hp, next⟩ := playReads_second
  have logged := playReads_logged hp
  exact ⟨p.1, p.2, logged, next, never_idle twoL1s_laid twoL1s_paced logged next⟩

end System
end McSim
