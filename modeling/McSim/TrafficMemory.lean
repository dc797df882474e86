import McSim.CrossbarDelivery
import McSim.MemoryControllerConservation
import McSim.Traffic

/-! What the crossbar and the memory controllers do with the elements they take: each is handed on
once, or dropped. -/

namespace McSim

open Contract Weighing

variable {C : Type} {w : Weight C} {part : C → Part C}

namespace Crossbar

variable {cfg : CrossbarConfig C} {t : Nat}

def incomingAll (w : Weight C) (x : Crossbar C) (cls : NocPriority) : Nat :=
  weigh (w.incoming cls) ((x.events cls).map (·.2))

def queuedAll (w : Weight C) (cfg : CrossbarConfig C) (qs : Queues C) : Nat :=
  ∑ port ∈ Finset.range cfg.numPorts, weigh w.queued (qs port)

theorem inCrossbar_eq (x : Crossbar C) : w.inCrossbar cfg x =
    incomingAll w x .req + incomingAll w x .crq + incomingAll w x .rep + queuedAll w cfg x.queues :=
  rfl

theorem inCrossbar_count (cls : NocPriority) (x : Crossbar C) :
    w.inCrossbar cfg (x.count cls) = w.inCrossbar cfg x := by
  cases cls <;> rfl

theorem inCrossbar_addEvent (cls : NocPriority) (x : Crossbar C) (lqe : Lqe C) (source : C) :
    w.inCrossbar cfg (addEvent cfg cls x t lqe source) =
      w.inCrossbar cfg x + w.incoming cls (lqe, source) := by
  cases cls <;> simp only [addEvent, Weight.inCrossbar, setEvents, events, count,
    weigh_insert] <;> omega

theorem inCrossbar_addDummies (cls : NocPriority) (lqe : Lqe C) (source : C) (n : Nat)
    (x : Crossbar C) :
    w.inCrossbar cfg (addDummies cfg cls t lqe source n x) = w.inCrossbar cfg x := by
  induction n generalizing x with
  | zero => rfl
  | succ n ih =>
    rw [addDummies, ih, inCrossbar_count, inCrossbar_addEvent]
    rfl

theorem inCrossbar_addFlits (cls : NocPriority) (x : Crossbar C) (lqe : Lqe C) (n : Nat)
    (source : C) :
    w.inCrossbar cfg (addFlits cfg cls x t lqe n source) =
      w.inCrossbar cfg x + w.incoming cls (lqe, source) := by
  rw [← inCrossbar_addDummies (t := t) cls lqe source _ x, ← inCrossbar_addEvent (t := t)]
  rfl

def flitWeight (w : Weight C) (f : Flit C) : Nat := w.queued (f.cls, f.lqe, f.dest)

theorem flit_spec {cls : NocPriority} {e : Lqe C × C} {f : Flit C} (h : flit cfg cls e = .ok f) :
    f.port < cfg.numPorts ∧ f.cls = cls ∧ f.lqe = carried cls e.1 ∧
      destination cfg cls e.1 = some f.dest := by
  unfold flit at h
  split at h
  · cases h
  · rename_i d hd
    split at h
    · rename_i fits
      cases h
      exact ⟨fits.1, rfl, rfl, hd⟩
    · cases h

theorem flitWeight_of {cls : NocPriority} {e : Lqe C × C} {f : Flit C}
    (h : flit cfg cls e = .ok f) :
    flitWeight w f = w.incoming cls e := by
  obtain ⟨-, hc, hl, -⟩ := flit_spec h
  rw [flitWeight, hc, hl]
  cases cls <;> rfl

structure Arrives (w : Weight C) (cfg : CrossbarConfig C) (n : Nat) (fs : List (Flit C)) :
    Prop where
  weighs : weigh (flitWeight w) fs = n
  ports : ∀ f ∈ fs, f.port < cfg.numPorts

theorem flits_arrives (w : Weight C) (cfg : CrossbarConfig C) (cls : NocPriority)
    (m : List (Nat × Lqe C × C)) :
    Meets (fun _ => True) (Arrives w cfg (weigh (w.incoming cls) (m.map (·.2))))
      (flits cfg cls m) := by
  induction m with
  | nil => exact ⟨rfl, fun _ h => by cases h⟩
  | cons e m ih =>
    unfold flits
    split
    · rename_i f fs hf hfs
      have rest := ih.of_ok hfs
      refine ⟨?_, fun g hg => ?_⟩
      · rw [List.map_cons, weigh_cons, weigh_cons, flitWeight_of hf, rest.weighs]
      · rcases List.mem_cons.mp hg with rfl | hg
        · exact (flit_spec hf).1
        · exact rest.ports g hg
    · trivial

theorem queuedAll_push {qs : Queues C} {f : Flit C} (h : f.port < cfg.numPorts) :
    queuedAll w cfg (push qs f) = queuedAll w cfg qs + flitWeight w f := by
  have one := sum_update qs (fun _ => weigh w.queued) (Finset.mem_range.mpr h)
    (Multimap.insert f.cls (f.lqe, f.dest) (qs f.port))
  rw [weigh_perm (Multimap.insert_perm f.cls (f.lqe, f.dest) (qs f.port)), weigh_cons] at one
  unfold queuedAll push flitWeight
  omega

theorem queuedAll_pushes (fs : List (Flit C)) (qs : Queues C)
    (h : ∀ f ∈ fs, f.port < cfg.numPorts) :
    queuedAll w cfg (fs.foldl push qs) = queuedAll w cfg qs + weigh (flitWeight w) fs := by
  induction fs generalizing qs with
  | nil => rfl
  | cons f fs ih =>
    rw [List.foldl_cons, ih _ fun g hg => h g (List.mem_cons_of_mem f hg),
      queuedAll_push (h f List.mem_cons_self), weigh_cons, Nat.add_assoc]

def sending (w : Weight C) (cfg : CrossbarConfig C) (s : Sending C) : Nat :=
  queuedAll w cfg s.queues + weigh (flitWeight w) s.served

theorem send_left (s : Sending C) (idx : Nat) (e : NocPriority × Lqe C × C)
    (rest : List (NocPriority × Lqe C × C)) : (send cfg idx e rest s).queues idx = rest := by
  simp [send]

theorem sending_send {s : Sending C} {idx : Nat} (h : idx < cfg.numPorts)
    {e : NocPriority × Lqe C × C} {rest : List (NocPriority × Lqe C × C)}
    (hq : weigh w.queued (s.queues idx) = w.queued e + weigh w.queued rest) :
    sending w cfg (send cfg idx e rest s) = sending w cfg s := by
  have one := sum_update s.queues (fun _ => weigh w.queued) (Finset.mem_range.mpr h) rest
  have left : flitWeight w ⟨idx, e.1, e.2.1, e.2.2⟩ = w.queued e := rfl
  simp only [sending, send, queuedAll, weigh_append, weigh_cons, weigh_nil, left]
  omega

theorem sending_trySecond {s : Sending C} {idx : Nat} (h : idx < cfg.numPorts)
    {kept rest : List (NocPriority × Lqe C × C)}
    (hq : weigh w.queued (s.queues idx) = weigh w.queued kept + weigh w.queued rest) :
    sending w cfg (trySecond cfg idx kept rest s) = sending w cfg s := by
  unfold trySecond
  split
  · rfl
  · rename_i e rest
    split
    · refine sending_send h ?_
      rw [hq, weigh_append, weigh_cons]
      omega
    · rfl

theorem sending_servePort (s : Sending C) {idx : Nat} (h : idx < cfg.numPorts) :
    sending w cfg (servePort cfg s idx) = sending w cfg s := by
  unfold servePort
  split
  · rfl
  · rename_i e rest hq
    split
    · refine (sending_trySecond h ?_).trans (sending_send h ?_)
      · rw [send_left, weigh_nil, Nat.zero_add]
      · rw [hq, weigh_cons]
    · refine sending_trySecond h ?_
      rw [hq, weigh_cons, weigh_cons, weigh_nil]
      omega

theorem sending_serveAll (order : List Nat) (s : Sending C)
    (h : ∀ idx ∈ order, idx < cfg.numPorts) :
    sending w cfg (order.foldl (servePort cfg) s) = sending w cfg s := by
  induction order generalizing s with
  | nil => rfl
  | cons idx order ih =>
    rw [List.foldl_cons, ih _ fun i hi => h i (List.mem_cons_of_mem idx hi),
      sending_servePort s (h idx List.mem_cons_self)]

theorem mem_order_lt {x : Crossbar C} {idx : Nat}
    (h : idx ∈ (List.range cfg.numPorts).map (portIdx cfg x)) : idx < cfg.numPorts := by
  obtain ⟨i, hi, rfl⟩ := List.mem_map.mp h
  exact Nat.mod_lt _ ((Nat.zero_le i).trans_lt (List.mem_range.mp hi))

def handed (cfg : CrossbarConfig C) (t : Nat) (served : List (Flit C)) : List (Call C) :=
  (served.filterMap (Flit.delivery cfg t)).map Part.delivered

theorem weigh_handed (w : Weight C) (part : C → Part C) (cfg : CrossbarConfig C) (t : Nat)
    (served : List (Flit C)) :
    weigh (w.charge part) (handed cfg t served) ≤ weigh (flitWeight w) served := by
  induction served with
  | nil => exact le_rfl
  | cons f served ih =>
    unfold handed at ih ⊢
    rw [weigh_cons]
    cases hd : f.lqe.dummy with
    | true =>
      rw [List.filterMap_cons_none (by rw [Flit.delivery, hd]; rfl)]
      omega
    | false =>
      have out : Flit.delivery cfg t f = some ⟨t + cfg.xbarToDirT, f.dest, f.cls = .req,
        f.lqe⟩ := by
        rw [Flit.delivery, hd]
        rfl
      rw [List.filterMap_cons_some out, List.map_cons, weigh_cons]
      refine Nat.add_le_add ?_ ih
      rw [flitWeight, Weight.queued, if_neg (by simp [hd])]
      split
      · rename_i hc
        refine w.charge_req_le part ?_
        show (if decide (f.cls = .req) then CallKind.req else .rep) = .req
        rw [if_pos (decide_eq_true hc)]
      · rename_i hc
        refine (w.charge_rep part ?_).le
        show (if decide (f.cls = .req) then CallKind.req else .rep) = .rep
        rw [if_neg (by simpa using hc)]

/-- Where a nack goes is on top of its stack. -/
def Aimed (e : NocPriority × Lqe C × C) : Prop :=
  e.1 ≠ .req → e.2.1.type = .nack → e.2.1.path.head? = some e.2.2

structure Straight (x : Crossbar C) : Prop where
  events : ∀ e ∈ x.crqEvents, e.2.1.type = .nack → e.2.1.path.head? = e.2.1.path.tail.head?
  queues : ∀ port, ∀ e ∈ x.queues port, Aimed e

theorem straight_init : Straight ({} : Crossbar C) :=
  ⟨fun _ h => (by cases h), fun _ _ h => (by cases h)⟩

theorem carried_type (cls : NocPriority) (lqe : Lqe C) : (carried cls lqe).type = lqe.type := by
  cases cls <;> rfl

theorem flit_aimed {cls : NocPriority} {e : Lqe C × C} {f : Flit C} (h : flit cfg cls e = .ok f)
    (crq : cls = .crq → e.1.type = .nack → e.1.path.head? = e.1.path.tail.head?) :
    Aimed (f.cls, f.lqe, f.dest) := by
  obtain ⟨-, rfl, hl, hd⟩ := flit_spec h
  intro hc hn
  dsimp only at hc hn ⊢
  rw [hl, carried_type] at hn
  rw [hl]
  cases hcls : f.cls with
  | req => exact (hc hcls).elim
  | rep =>
    rw [hcls, destination, hn] at hd
    exact hd
  | crq =>
    rw [hcls] at hd
    exact (crq hcls hn).symm.trans hd

section Forall
variable {P : NocPriority × Lqe C × C → Prop} {Q : NocPriority → Lqe C × C → Prop}

theorem flits_forall {cls : NocPriority}
    (makes : ∀ e f, Q cls e → flit cfg cls e = .ok f → P (f.cls, f.lqe, f.dest))
    (m : List (Nat × Lqe C × C)) (hm : ∀ e ∈ m, Q cls e.2) :
    Meets (fun _ => True) (fun fs => ∀ f ∈ fs, P (f.cls, f.lqe, f.dest)) (flits cfg cls m) := by
  induction m with
  | nil => exact fun _ h => by cases h
  | cons e m ih =>
    unfold flits
    split
    · rename_i f fs hf hfs
      have rest := (ih fun a ha => hm a (List.mem_cons_of_mem e ha)).of_ok hfs
      intro g hg
      rcases List.mem_cons.mp hg with rfl | hg
      · exact makes e.2 g (hm e List.mem_cons_self) hf
      · exact rest g hg
    · trivial

theorem pushes_forall (fs : List (Flit C)) {qs : Queues C} (h : ∀ port, ∀ e ∈ qs port, P e)
    (hf : ∀ f ∈ fs, P (f.cls, f.lqe, f.dest)) : ∀ port, ∀ e ∈ fs.foldl push qs port, P e := by
  induction fs generalizing qs with
  | nil => exact h
  | cons f fs ih =>
    refine ih (fun port e he => ?_) fun g hg => hf g (List.mem_cons_of_mem f hg)
    unfold push at he
    by_cases hp : port = f.port
    · subst hp
      rw [Function.update_self] at he
      rcases Multimap.mem_insert.mp he with rfl | he
      · exact hf f List.mem_cons_self
      · exact h _ e he
    · rw [Function.update_of_ne hp] at he
      exact h _ e he

structure Guided (P : NocPriority × Lqe C × C → Prop) (s : Sending C) : Prop where
  queues : ∀ port, ∀ e ∈ s.queues port, P e
  served : ∀ f ∈ s.served, P (f.cls, f.lqe, f.dest)

theorem Guided.send {s : Sending C} (h : Guided P s) {idx : Nat} {e : NocPriority × Lqe C × C}
    {rest : List (NocPriority × Lqe C × C)} (he : e ∈ s.queues idx)
    (hr : ∀ a ∈ rest, a ∈ s.queues idx) : Guided P (send cfg idx e rest s) where
  queues port a ha := by
    by_cases hp : port = idx
    · subst hp
      simp only [Crossbar.send, Function.update_self] at ha
      exact h.queues _ a (hr a ha)
    · simp only [Crossbar.send, Function.update_of_ne hp] at ha
      exact h.queues _ a ha
  served f hf := by
    rcases List.mem_append.mp hf with hf | hf
    · exact h.served f hf
    · rw [List.mem_singleton.mp hf]
      exact h.queues idx e he

theorem Guided.trySecond {s : Sending C} (h : Guided P s) {idx : Nat}
    {kept rest : List (NocPriority × Lqe C × C)} (hk : ∀ a ∈ kept, a ∈ s.queues idx)
    (hr : ∀ a ∈ rest, a ∈ s.queues idx) : Guided P (trySecond cfg idx kept rest s) := by
  unfold Crossbar.trySecond
  split
  · exact h
  · rename_i e rest
    split
    · exact h.send (hr e List.mem_cons_self) fun a ha =>
        (List.mem_append.mp ha).elim (hk a) fun ha => hr a (List.mem_cons_of_mem e ha)
    · exact h

theorem Guided.servePort {s : Sending C} (h : Guided P s) (idx : Nat) :
    Guided P (servePort cfg s idx) := by
  unfold Crossbar.servePort
  split
  · exact h
  · rename_i e rest hq
    have head : e ∈ s.queues idx := hq ▸ List.mem_cons_self
    have tail : ∀ a ∈ rest, a ∈ s.queues idx := fun a ha => hq ▸ List.mem_cons_of_mem e ha
    split
    · refine (h.send head tail).trySecond (fun _ ha => by cases ha) fun a ha => ?_
      rw [send_left]
      exact ha
    · exact h.trySecond (fun a ha => List.mem_singleton.mp ha ▸ head) tail

theorem Guided.serveAll (order : List Nat) {s : Sending C} (h : Guided P s) :
    Guided P (order.foldl (Crossbar.servePort cfg) s) := by
  induction order generalizing s with
  | nil => exact h
  | cons idx order ih => exact ih (h.servePort idx)

theorem processEvent_forall {x : Crossbar C}
    (makes : ∀ cls e f, Q cls e → flit cfg cls e = .ok f → P (f.cls, f.lqe, f.dest))
    (events : ∀ cls, ∀ e ∈ x.events cls, Q cls e.2) (queues : ∀ port, ∀ e ∈ x.queues port, P e) :
    Meets (fun _ => True) (fun r => (∀ cls, ∀ e ∈ r.xbar.events cls, Q cls e.2) ∧
      (∀ port, ∀ e ∈ r.xbar.queues port, P e) ∧ ∀ f ∈ r.served, P (f.cls, f.lqe, f.dest))
    (processEvent cfg x t) := by
  have front : ∀ cls, Meets (fun _ => True) (fun fs => ∀ f ∈ fs, P (f.cls, f.lqe, f.dest))
      (flits cfg cls (Multimap.front t (x.events cls))) := fun cls =>
    flits_forall (makes cls) _ fun e he => events cls e ((List.takeWhile_sublist _).subset he)
  unfold processEvent
  simp only [meets_bind, meets_pure]
  refine (front .rep).mono (fun rep repP => ?_) fun _ h => h
  refine (front .crq).mono (fun crq crqP => ?_) fun _ h => h
  refine (front .req).mono (fun req reqP => ?_) fun _ h => h
  have new : ∀ f ∈ rep ++ crq ++ req, P (f.cls, f.lqe, f.dest) := fun f hf => by
    rcases List.mem_append.mp hf with hf | hf
    · exact (List.mem_append.mp hf).elim (repP f) (crqP f)
    · exact reqP f hf
  have guided : Guided P (((List.range cfg.numPorts).map (portIdx cfg x)).foldl (servePort cfg)
      ⟨(rep ++ crq ++ req).foldl push x.queues, fun _ => false, []⟩) :=
    Guided.serveAll _ ⟨pushes_forall _ queues new, fun _ hf => by cases hf⟩
  refine ⟨fun cls e he => events cls e ?_, guided.queues, guided.served⟩
  cases cls <;> exact (Multimap.mem_erase.mp he).1

end Forall

theorem handed_routed {served : List (Flit C)} (h : ∀ f ∈ served, Aimed (f.cls, f.lqe, f.dest)) :
    ∀ call ∈ handed cfg t served, Routed part call := by
  intro call hc
  obtain ⟨d, hd, rfl⟩ := List.mem_map.mp hc
  obtain ⟨f, hf, out⟩ := List.mem_filterMap.mp hd
  unfold Flit.delivery at out
  split at out
  · cases out
  · cases out
    intro hn
    cases hcls : f.cls with
    | req =>
      simp [Part.delivered]
    | rep | crq =>
      simp only [Part.delivered]
      exact fun _ => h f hf (by simp [hcls]) hn

/-- What a call of `process_event` does to the elements in the crossbar -/
structure Passed (w : Weight C) (part : C → Part C) (cfg : CrossbarConfig C) (t : Nat)
    (x : Crossbar C) (r : Result C) : Prop where
  weighs : w.inCrossbar cfg r.xbar + weigh (w.charge part) (handed cfg t r.served) ≤
    w.inCrossbar cfg x
  routed : ∀ call ∈ handed cfg t r.served, Routed part call
  straight : Straight r.xbar

theorem processEvent_weighs (w : Weight C) (part : C → Part C) {x : Crossbar C} :
    Meets (fun _ => True)
    (fun r => w.inCrossbar cfg r.xbar + weigh (w.charge part) (handed cfg t r.served) ≤
      w.inCrossbar cfg x)
    (processEvent cfg x t) := by
  have front : ∀ cls, Meets (fun _ => True)
      (Arrives w cfg (weigh (w.incoming cls) ((Multimap.front t (x.events cls)).map (·.2))))
      (flits cfg cls (Multimap.front t (x.events cls))) := fun cls => flits_arrives w cfg cls _
  unfold processEvent
  simp only [meets_bind, meets_pure]
  refine (front .rep).mono (fun rep repIn => ?_) fun _ h => h
  refine (front .crq).mono (fun crq crqIn => ?_) fun _ h => h
  refine (front .req).mono (fun req reqIn => ?_) fun _ h => h
  have ports : ∀ f ∈ rep ++ crq ++ req, f.port < cfg.numPorts := fun f hf => by
    rcases List.mem_append.mp hf with hf | hf
    · exact (List.mem_append.mp hf).elim (repIn.ports f) (crqIn.ports f)
    · exact reqIn.ports f hf
  have all := sending_serveAll (w := w) ((List.range cfg.numPorts).map (portIdx cfg x))
    ⟨(rep ++ crq ++ req).foldl push x.queues, fun _ => false, []⟩ fun idx hi => mem_order_lt hi
  have out := weigh_handed w part cfg t
    (((List.range cfg.numPorts).map (portIdx cfg x)).foldl (servePort cfg)
      ⟨(rep ++ crq ++ req).foldl push x.queues, fun _ => false, []⟩).served
  have pushed := queuedAll_pushes (w := w) (rep ++ crq ++ req) x.queues ports
  have repLeft := weigh_front_erase (f := w.incoming .rep) t x.repEvents
  have crqLeft := weigh_front_erase (f := w.incoming .crq) t x.crqEvents
  have reqLeft := weigh_front_erase (f := w.incoming .req) t x.reqEvents
  have repW := repIn.weighs
  have crqW := crqIn.weighs
  have reqW := reqIn.weighs
  simp only [events] at repW crqW reqW
  rw [weigh_append, weigh_append, repW, crqW, reqW] at pushed
  simp only [sending, pushed, weigh_nil] at all
  rw [inCrossbar_eq, inCrossbar_eq]
  simp only [incomingAll, events]
  omega

theorem processEvent_passed (w : Weight C) (part : C → Part C) {x : Crossbar C} (h : Straight x) :
    Meets (fun _ => True) (Passed w part cfg t x) (processEvent cfg x t) := by
  have named : ∀ cls, ∀ e ∈ x.events cls, cls = .crq → e.2.1.type = .nack →
      e.2.1.path.head? = e.2.1.path.tail.head? := fun cls e he hc => by
    subst hc
    exact h.events e he
  have kept := @processEvent_forall _ cfg t Aimed
    (fun cls e => cls = .crq → e.1.type = .nack → e.1.path.head? = e.1.path.tail.head?) x
    (fun cls e f crq hf => flit_aimed hf crq) named h.queues
  refine ((processEvent_weighs w part).and kept).mono (fun r both => ?_) fun _ h => h
  obtain ⟨weighs, events, queues, served⟩ := both
  exact ⟨weighs, handed_routed served, fun e he => events .crq e he rfl, queues⟩

/-- A coherence request on its way names its target twice. -/
def Named (cls : NocPriority) (lqe : Lqe C) : Prop :=
  cls = .crq → lqe.type = .nack → lqe.path.head? = lqe.path.tail.head?

theorem Straight.count {x : Crossbar C} (h : Straight x) (cls : NocPriority) :
    Straight (x.count cls) := by
  cases cls <;> exact ⟨h.events, h.queues⟩

theorem Straight.addEvent {x : Crossbar C} (h : Straight x) {cls : NocPriority} {lqe : Lqe C}
    (named : Named cls lqe) (source : C) : Straight (addEvent cfg cls x t lqe source) := by
  cases cls with
  | req => exact ⟨h.events, h.queues⟩
  | rep => exact ⟨h.events, h.queues⟩
  | crq =>
    refine ⟨fun e he => ?_, h.queues⟩
    rcases Multimap.mem_insert.mp he with rfl | he
    · exact named rfl
    · exact h.events e he

theorem Straight.addDummies {x : Crossbar C} (h : Straight x) {cls : NocPriority} {lqe : Lqe C}
    (named : Named cls lqe) (source : C) (n : Nat) :
    Straight (addDummies cfg cls t lqe source n x) := by
  induction n generalizing x with
  | zero => exact h
  | succ n ih =>
    have dummy : Named cls (dummyOf lqe) := named
    exact ih ((h.addEvent dummy source).count cls)

theorem Straight.addFlits {x : Crossbar C} (h : Straight x) {cls : NocPriority} {lqe : Lqe C}
    (named : Named cls lqe) (n : Nat) (source : C) :
      Straight (addFlits cfg cls x t lqe n source) := by
  have dummies : Straight (Crossbar.addDummies cfg cls t lqe source
    ((n + 2 ^ 32 - 1) % 2 ^ 32) x) :=
    h.addDummies named source _
  have added : Straight (Crossbar.addEvent cfg cls _ t lqe source) := dummies.addEvent named source
  exact ⟨added.events, added.queues⟩

end Crossbar

namespace MemoryController

variable {cfg : McConfig C} {t : Nat} {s : MemoryController C} {lqe : Lqe C}

theorem reply_sends (w : Weight C) (t : Nat) (lqe : Lqe C)
    (h : (part cfg.directory).isCache = false) :
    Sends w part (w.load lqe) [reply cfg t lqe] :=
  Sends.one le_rfl fun _ hc => by cases h.symm.trans hc

theorem addReqEvent_sends (w : Weight C) (h : (part cfg.directory).isCache = false)
    (s : MemoryController C) (t : Nat) (lqe : Lqe C) :
      ∃ k, Sends w part k (s.addReqEvent cfg t lqe).2.calls ∧
      w.inMc (s.addReqEvent cfg t lqe).1 + k ≤ w.inMc s + w.load lqe := by
  unfold addReqEvent
  dsimp only
  split
  · split
    · exact ⟨0, .nil, Nat.le_add_right _ _⟩
    · exact ⟨w.load lqe, reply_sends w _ lqe h, le_rfl⟩
  · split
    · split
      · exact ⟨0, .nil, Nat.le_add_right _ _⟩
      · exact ⟨w.load lqe, reply_sends w _ lqe h, le_rfl⟩
    · refine ⟨0, .nil, ?_⟩
      simp only [Weight.inMc, weigh_insert]
      omega

theorem replied_load (lqe : Lqe C) : w.load (replied lqe) = w.load lqe := by
  unfold replied
  split
  · rename_i type
    rw [w.load_stack lqe (congrArg cargo type), w.load_stack _ rfl]
    rfl
  · rfl

theorem answer_sends (w : Weight C) (h : (part cfg.directory).isCache = false)
    (log : List (Nat × McCommand × Lqe C)) :
    Sends w part (weigh w.load (served log)) (log.flatMap (answer cfg)) := by
  have one : ∀ e : Nat × McCommand × Lqe C,
      Sends w part (weigh w.load (servedBy e).toList) (answer cfg e) := by
    rintro ⟨t, command, lqe⟩
    cases command with
    | activate | precharge => exact .nil
    | column rank bank page isWrite auto =>
      show Sends w part _ (if isEvict lqe.type = true then [] else [reply cfg t (replied lqe)])
      split
      · exact .nil
      · have sends := reply_sends w t (replied lqe) h
        rw [replied_load] at sends
        exact sends.mono (by simp [servedBy])
  induction log with
  | nil => exact .nil
  | cons e log ih =>
    have both := (one e).append ih
    rw [← weigh_append] at both
    have same : served (e :: log) = (servedBy e).toList ++ served log := by
      unfold served
      cases hs : servedBy e with
      | none => exact List.filterMap_cons_none hs
      | some lqe => exact List.filterMap_cons_some hs
    rw [same]
    exact both

theorem processEvent_sends (w : Weight C) (h : (part cfg.directory).isCache = false) :
    Meets (fun _ => True) (fun r => ∃ k, Sends w part k r.2.calls ∧ w.inMc r.1 + k ≤ w.inMc s)
      (processEvent cfg t s) := by
  refine processEvent_processed.mono (fun r processed => ?_) fun _ _ => trivial
  obtain ⟨⟨mc, done, prepared, does, calls, -, -⟩, -⟩ := processed
  have moves := McSystem.moves_does does
  rw [calls, moves.calls]
  refine ⟨_, answer_sends w h _, ?_⟩
  have once := weigh_perm (f := w.load) moves.once
  have front := weigh_front (f := w.load) t s.reqEvent
  rw [prepared.reqL, weigh_append, weigh_append] at once
  simp only [Weight.inMc]
  rw [moves.reqEvent, prepared.reqEvent]
  omega

end MemoryController
end McSim
