import McSim.Crossbar
import Mathlib.Data.List.Perm.Basic
import Mathlib.Data.List.Count
import Mathlib.Data.Prod.Lex

/-! One call of `process_event` of the crossbar.
The events of the tick join the queues of their ports, and of each queue at most one flit leaves,
to a destination that no other flit of the call is for. In each lane, which is a port, a class and
a destination, flits leave in the order in which they came. -/

namespace McSim.Crossbar

variable {C : Type}

def eventFlits (cfg : CrossbarConfig C) (cls : NocPriority) (m : List (Nat × Lqe C × C)) :
    List (Flit C) :=
  m.filterMap fun e => (flit cfg cls e.2).toOption

def inEvents (cfg : CrossbarConfig C) (x : Crossbar C) : List (Flit C) :=
  eventFlits cfg .rep x.repEvents ++ eventFlits cfg .crq x.crqEvents ++
    eventFlits cfg .req x.reqEvents

def waiting (qs : Queues C) (p : Nat) : List (Flit C) := (qs p).map fun e => ⟨p, e.1, e.2.1, e.2.2⟩

def inQueues (cfg : CrossbarConfig C) (qs : Queues C) : List (Flit C) :=
  (List.range cfg.numPorts).flatMap (waiting qs)

def lane [DecidableEq C] (p : Nat) (cls : NocPriority) (d : C) (f : Flit C) : Bool :=
  f.port = p ∧ f.cls = cls ∧ f.dest = d

theorem waiting_update_self (qs : Queues C) (p : Nat) (q : List (NocPriority × Lqe C × C)) :
    waiting (Function.update qs p q) p = q.map fun e => ⟨p, e.1, e.2.1, e.2.2⟩ := by
  simp [waiting]

theorem waiting_update_of_ne {qs : Queues C} {i p : Nat} (h : p ≠ i)
    (q : List (NocPriority × Lqe C × C)) :
    waiting (Function.update qs i q) p = waiting qs p := by
  simp [waiting, Function.update_of_ne h]

def QueuesOrdered (qs : Queues C) : Prop := ∀ p, Multimap.Ordered (qs p)

theorem push_ordered {qs : Queues C} (h : QueuesOrdered qs) (f : Flit C) :
    QueuesOrdered (push qs f) := by
  intro p
  by_cases hp : p = f.port
  · subst hp
    simpa [push] using Multimap.insert_ordered (h f.port)
  · simpa [push, Function.update_of_ne hp] using h p

theorem pushes_ordered {qs : Queues C} (h : QueuesOrdered qs) (fs : List (Flit C)) :
    QueuesOrdered (fs.foldl push qs) := by
  induction fs generalizing qs with
  | nil => exact h
  | cons f fs ih => exact ih (push_ordered h f)

theorem pushes_eq_nil {qs : Queues C} {p : Nat} (fs : List (Flit C)) (h : qs p = [])
    (hp : ∀ f ∈ fs, f.port ≠ p) : (fs.foldl push qs) p = [] := by
  induction fs generalizing qs with
  | nil => exact h
  | cons f fs ih =>
    refine ih ?_ fun g hg => hp g (List.mem_cons_of_mem _ hg)
    rw [push, Function.update_of_ne (hp f List.mem_cons_self).symm, h]

theorem push_eq_nil {qs : Queues C} {f : Flit C} {p : Nat} (h : push qs f p = []) : qs p = [] := by
  by_cases hp : p = f.port
  · subst hp
    rw [push, Function.update_self] at h
    have := (Multimap.insert_perm f.cls (f.lqe, f.dest) (qs f.port)).length_eq
    simp [h] at this
  · rwa [push, Function.update_of_ne hp] at h

theorem pushes_nil_left {qs : Queues C} {p : Nat} (fs : List (Flit C))
    (h : fs.foldl push qs p = []) : qs p = [] := by
  induction fs generalizing qs with
  | nil => exact h
  | cons f fs ih => exact push_eq_nil (ih h)

theorem servePort_served {cfg : CrossbarConfig C} {s : Sending C} {idx : Nat}
    (hsent : ∀ n, s.sent n = false) (hq : s.queues idx ≠ []) :
    (servePort cfg s idx).served ≠ [] := by
  unfold servePort
  split
  · exact absurd ‹_› hq
  · rw [if_pos (hsent _)]
    unfold trySecond
    split
    · simp [send]
    · split <;> simp [send]

theorem serve_mono {cfg : CrossbarConfig C} {s : Sending C} (idx : Nat) (h : s.served ≠ []) :
    (servePort cfg s idx).served ≠ [] := by
  unfold servePort trySecond
  repeat' split
  all_goals simp [send, h]

theorem serveAll_mono {cfg : CrossbarConfig C} {s : Sending C} (order : List Nat)
    (h : s.served ≠ []) : (order.foldl (servePort cfg) s).served ≠ [] := by
  induction order generalizing s with
  | nil => exact h
  | cons idx order ih => exact ih (serve_mono idx h)

section Lanes
variable [DecidableEq C]

theorem push_lane {qs : Queues C} (h : QueuesOrdered qs) (f : Flit C) (p : Nat)
    (cls : NocPriority) (d : C) :
    (waiting (push qs f) p).filter (lane p cls d) =
      (waiting qs p).filter (lane p cls d) ++ [f].filter (lane p cls d) := by
  by_cases hp : f.port = p
  · subst hp
    rw [push, waiting_update_self, waiting, List.filter_map, List.filter_map]
    by_cases hcls : f.cls = cls
    · rw [Multimap.filter_insert f.cls (f.lqe, f.dest) _ (h f.port), List.map_append]
      · congr 1
        simp only [List.filter_cons, List.filter_nil, Function.comp]
        split <;> rfl
      · intro e he
        simp only [lane, Function.comp, decide_eq_true_eq] at he
        rw [he.2.1, hcls]
    · rw [Multimap.filter_insert_of_ne]
      · simp [lane, hcls]
      · simp [lane, hcls]
  · rw [push, waiting_update_of_ne (Ne.symm hp)]
    simp [lane, hp]

theorem pushes_lane {qs : Queues C} (h : QueuesOrdered qs) (fs : List (Flit C)) (p : Nat)
    (cls : NocPriority) (d : C) :
    (waiting (fs.foldl push qs) p).filter (lane p cls d) =
      (waiting qs p).filter (lane p cls d) ++ fs.filter (lane p cls d) := by
  induction fs generalizing qs with
  | nil => simp
  | cons f fs ih =>
    rw [List.foldl_cons, ih (push_ordered h f), push_lane h, List.append_assoc,
      ← List.filter_append, List.singleton_append]

structure Serving (cfg : CrossbarConfig C) (qs : Queues C) (s : Sending C) : Prop where
  lanes : ∀ (p : Nat) (cls : NocPriority) (d : C), (waiting qs p).filter (lane p cls d) =
    s.served.filter (lane p cls d) ++ (waiting s.queues p).filter (lane p cls d)
  sublist : ∀ p, List.Sublist (s.queues p) (qs p)
  nodup : (s.served.map fun f => cfg.num f.dest).Nodup
  sent : ∀ f ∈ s.served, s.sent (cfg.num f.dest) = true
  idle : s.served = [] → s.queues = qs ∧ ∀ n, s.sent n = false

theorem serving_init (cfg : CrossbarConfig C) (qs : Queues C) :
    Serving cfg qs ⟨qs, fun _ => false, []⟩ :=
  ⟨fun _ _ _ => rfl, fun _ => List.Sublist.refl _, List.nodup_nil, by simp, by simp⟩

theorem send_lanes {kept rest : List (NocPriority × Lqe C × C)} {e : NocPriority × Lqe C × C}
    (p : Nat) (cls : NocPriority) (d : C) (hk : ∀ a ∈ kept, a.2.2 ≠ e.2.2) :
    ((kept ++ e :: rest).map fun e => (⟨p, e.1, e.2.1, e.2.2⟩ : Flit C)).filter (lane p cls d) =
      [(⟨p, e.1, e.2.1, e.2.2⟩ : Flit C)].filter (lane p cls d) ++
        ((kept ++ rest).map fun e => (⟨p, e.1, e.2.1, e.2.2⟩ : Flit C)).filter (lane p cls d) := by
  simp only [List.map_append, List.map_cons, List.filter_append, List.filter_cons, List.filter_nil]
  by_cases he : lane p cls d ⟨p, e.1, e.2.1, e.2.2⟩ = true
  · have passed : (kept.map fun e => (⟨p, e.1, e.2.1, e.2.2⟩ : Flit C)).filter
      (lane p cls d) = [] := by
      simp only [List.filter_eq_nil_iff, List.mem_map, forall_exists_index, and_imp]
      rintro _ a ha rfl
      simp only [lane, decide_eq_true_eq, true_and, not_and] at he ⊢
      exact fun _ h => hk a ha (h.trans he.2.symm)
    simp [he, passed]
  · simp [he]

theorem send_serving {cfg : CrossbarConfig C} {qs : Queues C} {s : Sending C} {idx : Nat}
    {kept rest : List (NocPriority × Lqe C × C)} {e : NocPriority × Lqe C × C}
    (h : Serving cfg qs s) (hq : s.queues idx = kept ++ e :: rest)
    (hk : ∀ a ∈ kept, s.sent (cfg.num a.2.2) = true) (he : s.sent (cfg.num e.2.2) = false) :
    Serving cfg qs (send cfg idx e (kept ++ rest) s) where
  lanes p cls d := by
    rw [h.lanes, send, List.filter_append, List.append_assoc]
    congr 1
    by_cases hp : p = idx
    · subst hp
      rw [waiting_update_self, waiting, hq]
      refine send_lanes p cls d fun a ha hae => ?_
      rw [← hae, hk a ha] at he
      cases he
    · rw [waiting_update_of_ne hp]
      simp [lane, Ne.symm hp]
  sublist p := by
    by_cases hp : p = idx
    · subst hp
      have tail : List.Sublist (kept ++ rest) (s.queues p) := by
        rw [hq]
        exact (List.sublist_cons_self e rest).append_left kept
      simpa [send] using tail.trans (h.sublist p)
    · simpa [send, Function.update_of_ne hp] using h.sublist p
  nodup := by
    rw [send, List.map_append, List.nodup_append]
    refine ⟨h.nodup, List.nodup_singleton _, ?_⟩
    simp only [List.mem_map, List.map_cons, List.map_nil, List.mem_singleton]
    rintro _ ⟨f, hf, rfl⟩ _ rfl heq
    have := h.sent f hf
    rw [heq, he] at this
    cases this
  sent f hf := by
    rcases List.mem_append.mp hf with hf | hf
    · by_cases hn : cfg.num f.dest = cfg.num e.2.2
      · simp [send, hn]
      · simpa [send, Function.update_of_ne hn] using h.sent f hf
    · rw [List.mem_singleton.mp hf]
      simp [send]
  idle hs := by simp [send] at hs

theorem trySecond_serving {cfg : CrossbarConfig C} {qs : Queues C} {s : Sending C} {idx : Nat}
    {kept rest : List (NocPriority × Lqe C × C)} (h : Serving cfg qs s)
    (hq : s.queues idx = kept ++ rest) (hk : ∀ a ∈ kept, s.sent (cfg.num a.2.2) = true) :
    Serving cfg qs (trySecond cfg idx kept rest s) := by
  unfold trySecond
  split
  · exact h
  · split
    · rename_i he
      exact send_serving h hq hk he
    · exact h

theorem servePort_serving {cfg : CrossbarConfig C} {qs : Queues C} {s : Sending C}
    (h : Serving cfg qs s) (idx : Nat) : Serving cfg qs (servePort cfg s idx) := by
  unfold servePort
  split
  · exact h
  · rename_i e rest hq
    split
    · rename_i he
      have head : Serving cfg qs (send cfg idx e ([] ++ rest) s) := send_serving h hq (by simp) he
      exact trySecond_serving head (by simp [send]) (by simp)
    · rename_i he
      exact trySecond_serving h hq (by simpa using he)

theorem serveAll_serving {cfg : CrossbarConfig C} {qs : Queues C} {s : Sending C}
    (h : Serving cfg qs s) (order : List Nat) :
    Serving cfg qs (order.foldl (servePort cfg) s) := by
  induction order generalizing s with
  | nil => exact h
  | cons idx order ih => exact ih (servePort_serving h idx)

theorem serveAll_served {cfg : CrossbarConfig C} {qs : Queues C} {s : Sending C} {order : List Nat}
    {p : Nat} (h : Serving cfg qs s) (hp : p ∈ order) (hq : qs p ≠ []) :
    (order.foldl (servePort cfg) s).served ≠ [] := by
  induction order generalizing s with
  | nil => cases hp
  | cons idx order ih =>
    by_cases hs : (servePort cfg s idx).served = []
    · have still : s.served = [] := by
        by_contra hne
        exact serve_mono idx hne hs
      obtain ⟨rfl, hsent⟩ := h.idle still
      rcases List.mem_cons.mp hp with rfl | hp
      · exact absurd hs (servePort_served hsent hq)
      · exact ih (servePort_serving h idx) hp
    · exact serveAll_mono order hs

theorem lane_self (f : Flit C) : lane f.port f.cls f.dest f = true := by simp [lane]

theorem count_inQueues {cfg : CrossbarConfig C} {qs : Queues C}
    (hp : ∀ p, cfg.numPorts ≤ p → qs p = []) (f : Flit C) :
    (inQueues cfg qs).count f = (waiting qs f.port).count f := by
  have elsewhere : ∀ p ≠ f.port, (waiting qs p).count f = 0 := by
    intro p hne
    refine List.count_eq_zero_of_not_mem fun hf => hne ?_
    obtain ⟨e, -, rfl⟩ := List.mem_map.mp hf
    rfl
  have sum : ∀ n, ((List.range n).map fun p => (waiting qs p).count f).sum =
      if f.port < n then (waiting qs f.port).count f else 0 := by
    intro n
    induction n with
    | zero => rfl
    | succ n ih =>
      rw [List.range_succ, List.map_append, List.sum_append, ih]
      by_cases hn : n = f.port
      · simp [hn]
      · rw [List.map_singleton, List.sum_singleton, elsewhere n hn]
        have : f.port < n + 1 ↔ f.port < n := by omega
        simp [this]
  rw [inQueues, List.count_flatMap]
  refine (sum cfg.numPorts).trans ?_
  split
  · rfl
  · rw [waiting, hp f.port (by omega)]
    rfl

theorem perm_of_lanes {cfg : CrossbarConfig C} {qs : Queues C} {a b : List (Flit C)}
    (h : ∀ (p : Nat) (cls : NocPriority) (d : C), a.filter (lane p cls d) =
      b.filter (lane p cls d) ++ (waiting qs p).filter (lane p cls d))
    (hp : ∀ p, cfg.numPorts ≤ p → qs p = []) : a.Perm (b ++ inQueues cfg qs) := by
  refine List.perm_iff_count.mpr fun f => ?_
  have hf := congrArg (List.count f) (h f.port f.cls f.dest)
  rw [List.count_append, List.count_filter (lane_self f), List.count_filter (lane_self f),
    List.count_filter (lane_self f)] at hf
  rw [hf, List.count_append, count_inQueues hp]

end Lanes

def arrivals (cfg : CrossbarConfig C) (x : Crossbar C) (t : Nat) : List (Flit C) :=
  eventFlits cfg .rep (Multimap.front t x.repEvents) ++
    eventFlits cfg .crq (Multimap.front t x.crqEvents) ++
    eventFlits cfg .req (Multimap.front t x.reqEvents)

def arbitrate (cfg : CrossbarConfig C) (x : Crossbar C) (t : Nat) : Sending C :=
  ((List.range cfg.numPorts).map (portIdx cfg x)).foldl (servePort cfg)
    ⟨(arrivals cfg x t).foldl push x.queues, fun _ => false, []⟩

theorem flits_eq {cfg : CrossbarConfig C} {cls : NocPriority} {m : List (Nat × Lqe C × C)}
    (h : ∀ e ∈ m, ∃ f, flit cfg cls e.2 = .ok f) :
      flits cfg cls m = .ok (eventFlits cfg cls m) := by
  induction m with
  | nil => rfl
  | cons e m ih =>
    obtain ⟨f, hf⟩ := h e List.mem_cons_self
    have tail := ih fun a ha => h a (List.mem_cons_of_mem _ ha)
    simp [flits, hf, tail, eventFlits, Except.toOption]

theorem flit_port {cfg : CrossbarConfig C} {cls : NocPriority} {e : Lqe C × C} {f : Flit C}
    (h : flit cfg cls e = .ok f) : f.port < cfg.numPorts := by
  unfold flit at h
  split at h
  · cases h
  · split at h
    · cases h
      rename_i hn
      exact hn.1
    · cases h

theorem flit_lqe {cfg : CrossbarConfig C} {cls : NocPriority} {e : Lqe C × C} {f : Flit C}
    (h : flit cfg cls e = .ok f) : f.lqe = carried cls e.1 := by
  unfold flit at h
  split at h
  · cases h
  · split at h
    · cases h
      rfl
    · cases h

@[simp] theorem carried_serial (cls : NocPriority) (lqe : Lqe C) :
    (carried cls lqe).serial = lqe.serial := by cases cls <;> rfl

@[simp] theorem carried_dummy (cls : NocPriority) (lqe : Lqe C) :
    (carried cls lqe).dummy = lqe.dummy := by cases cls <;> rfl

theorem mem_eventFlits {cfg : CrossbarConfig C} {cls : NocPriority} {m : List (Nat × Lqe C × C)}
    {f : Flit C} : f ∈ eventFlits cfg cls m ↔ ∃ e ∈ m, flit cfg cls e.2 = .ok f := by
  have ok : ∀ r : Except Abort (Flit C), r.toOption = some f ↔ r = .ok f := by
    rintro (a | g) <;> simp [Except.toOption]
  simp only [eventFlits, List.mem_filterMap, ok]

theorem arrivals_port {cfg : CrossbarConfig C} {x : Crossbar C} {t : Nat} {f : Flit C}
    (h : f ∈ arrivals cfg x t) : f.port < cfg.numPorts := by
  simp only [arrivals, List.mem_append, mem_eventFlits] at h
  rcases h with (⟨e, -, h⟩ | ⟨e, -, h⟩) | ⟨e, -, h⟩ <;> exact flit_port h

def after (cfg : CrossbarConfig C) (x : Crossbar C) (t : Nat) : Crossbar C :=
  { x with
    reqEvents := Multimap.erase t x.reqEvents
    crqEvents := Multimap.erase t x.crqEvents
    repEvents := Multimap.erase t x.repEvents
    queues := (arbitrate cfg x t).queues
    clockwise := !x.clockwise
    topPriority := if x.clockwise then x.topPriority else (x.topPriority + 1) % cfg.numPorts }

theorem processEvent_eq {cfg : CrossbarConfig C} {x : Crossbar C} {t : Nat}
    (h : ∀ cls, ∀ e ∈ x.events cls, ∃ f, flit cfg cls e.2 = .ok f) :
    processEvent cfg x t = .ok {
      xbar := after cfg x t
      queued := arrivals cfg x t
      served := (arbitrate cfg x t).served
      wakeup := if anyQueued cfg (arbitrate cfg x t).queues then some (t + cfg.processInterval)
        else none } := by
  have front : ∀ cls, flits cfg cls (Multimap.front t (x.events cls)) =
      .ok (eventFlits cfg cls (Multimap.front t (x.events cls))) :=
    fun cls => flits_eq fun e he => h cls e ((List.takeWhile_sublist _).subset he)
  have rep := front .rep
  have crq := front .crq
  have req := front .req
  simp only [events] at rep crq req
  simp only [processEvent, rep, crq, req]
  rfl

theorem after_events (cfg : CrossbarConfig C) (x : Crossbar C) (t : Nat) (cls : NocPriority) :
    (after cfg x t).events cls = Multimap.erase t (x.events cls) := by
  cases cls <;> rfl

theorem eventFlits_front_append_erase {cfg : CrossbarConfig C} {cls : NocPriority}
    {m : List (Nat × Lqe C × C)} {t : Nat} (ho : Multimap.Ordered m) (hk : ∀ e ∈ m, t ≤ e.1) :
    (eventFlits cfg cls (Multimap.front t m) ++ eventFlits cfg cls (Multimap.erase t m)) =
      eventFlits cfg cls m := by
  rw [eventFlits, eventFlits, ← List.filterMap_append, Multimap.front_append_erase ho hk]
  rfl

theorem inEvents_after (cfg : CrossbarConfig C) {x : Crossbar C} {t : Nat}
    (ho : ∀ cls, Multimap.Ordered (x.events cls)) (hk : ∀ cls, ∀ e ∈ x.events cls, t ≤ e.1) :
    (inEvents cfg x).Perm (inEvents cfg (after cfg x t) ++ arrivals cfg x t) := by
  have split : ∀ cls, (eventFlits cfg cls (x.events cls)).Perm
      (eventFlits cfg cls (Multimap.erase t (x.events cls)) ++
        eventFlits cfg cls (Multimap.front t (x.events cls))) := fun cls => by
    rw [← eventFlits_front_append_erase (ho cls) (hk cls)]
    exact List.perm_append_comm
  have interchange : ∀ a b c d : List (Flit C), (a ++ b ++ (c ++ d)).Perm (a ++ c ++ (b ++ d)) := by
    intro a b c d
    rw [List.append_assoc, List.append_assoc, ← List.append_assoc b, ← List.append_assoc c]
    exact ((List.perm_append_comm : (b ++ c).Perm (c ++ b)).append_right d).append_left a
  have all := ((split .rep).append (split .crq)).append (split .req)
  exact (all.trans ((interchange _ _ _ _).append_right _)).trans (interchange _ _ _ _)

theorem arbitrate_serving [DecidableEq C] (cfg : CrossbarConfig C) (x : Crossbar C) (t : Nat) :
    Serving cfg ((arrivals cfg x t).foldl push x.queues) (arbitrate cfg x t) :=
  serveAll_serving (serving_init cfg _) _

end McSim.Crossbar
