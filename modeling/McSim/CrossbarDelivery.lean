import McSim.CrossbarDispatch
import Mathlib.Data.Finset.Option
import Mathlib.Data.Finset.Card

/-! Delivery through the crossbar.
A run interleaves calls of the `add` functions with `process_event` at the first tick the
crossbar asked for. The logs keep what was added, what entered a port queue and what left in
each call; elements brought in by a call carry its number. -/

namespace McSim.Crossbar

variable {C : Type}

inductive Form
  | single
  | flits (n : Nat)

/-- The multi-flit form exists for replies and coherence requests, with at least one flit. -/
def Form.Valid (cls : NocPriority) : Form → Prop
  | .single => True
  | .flits n => cls ≠ .req ∧ 1 ≤ n ∧ n < 2 ^ 32

def addForm (cfg : CrossbarConfig C) (cls : NocPriority) (form : Form) (x : Crossbar C) (t : Nat)
    (lqe : Lqe C) (source : C) : Crossbar C :=
  match form with
  | .single => addEvent cfg cls x t lqe source
  | .flits n => addFlits cfg cls x t lqe n source

structure System (C : Type) where
  xbar : Crossbar C := {}
  scheduled : Finset Nat := ∅
  added : List (Flit C) := []
  queued : List (Flit C) := []
  calls : List (Nat × List (Flit C)) := []

namespace System

def stamp (s : System C) (lqe : Lqe C) : Lqe C := { lqe with serial := some s.added.length }

/-- A call of an `add` function for an element that will become the flit `f`. -/
def add (cfg : CrossbarConfig C) (s : System C) (cls : NocPriority) (form : Form) (t : Nat)
    (lqe : Lqe C) (source : C) (f : Flit C) : System C :=
  { s with
    xbar := addForm cfg cls form s.xbar t (s.stamp lqe) source
    scheduled := insert (align cfg t) s.scheduled
    added := s.added ++ [f] }

def dispatch (cfg : CrossbarConfig C) (s : System C) (t : Nat) : Except Abort (System C) :=
  match processEvent cfg s.xbar t with
  | .error a => .error a
  | .ok r => .ok { s with
      xbar := r.xbar
      scheduled := s.scheduled.erase t ∪ r.wakeup.toFinset
      queued := s.queued ++ r.queued
      calls := s.calls ++ [(t, r.served)] }

def next (cfg : CrossbarConfig C) (s : System C) : Except Abort (System C) :=
  match first s.scheduled with
  | none => .ok s
  | some t => s.dispatch cfg t

def drain (cfg : CrossbarConfig C) : Nat → System C → Except Abort (System C)
  | 0, s => .ok s
  | n + 1, s =>
    match s.next cfg with
    | .error a => .error a
    | .ok s => drain cfg n s

/-- The source port and the destination of what is added have to exist, which `flit` checks. -/
inductive Run (cfg : CrossbarConfig C) : System C → Prop
  | init : Run cfg {}
  | add {s} (cls : NocPriority) (form : Form) (t : Nat) (lqe : Lqe C) (source : C) (f : Flit C) :
      Run cfg s → form.Valid cls → flit cfg cls (s.stamp lqe, source) = .ok f →
      Run cfg (s.add cfg cls form t lqe source f)
  | next {s s'} : Run cfg s → s.next cfg = .ok s' → Run cfg s'

/-- What left the port queues, in order, and what of it was handed on. -/
def served (s : System C) : List (Flit C) := s.calls.flatMap (·.2)

def deliveries (cfg : CrossbarConfig C) (s : System C) : List (Delivery C) :=
  s.calls.flatMap fun c => c.2.filterMap (Flit.delivery cfg c.1)

/-- The deliveries of the element that call number `k` brought in. -/
def delivered (cfg : CrossbarConfig C) (s : System C) (k : Nat) : List (Delivery C) :=
  (s.deliveries cfg).filter fun d => d.lqe.serial = some k

end System

/-- A non-dummy element is inside or was delivered, once and where it was sent; nothing else is
delivered; a call sends at most one flit to a destination number; lanes keep their order. -/
structure Correct [DecidableEq C] (cfg : CrossbarConfig C) (s : System C) : Prop where
  once : ∀ (k : Nat) (f : Flit C), s.added[k]? = some f → f.lqe.dummy = false →
    (f ∈ inEvents cfg s.xbar ++ inQueues cfg s.xbar.queues ∧ s.delivered cfg k = []) ∨
    (f ∉ inEvents cfg s.xbar ++ inQueues cfg s.xbar.queues ∧
      ∃ t, s.delivered cfg k = [⟨t + cfg.xbarToDirT, f.dest, f.cls = .req, f.lqe⟩])
  known : ∀ d ∈ s.deliveries cfg, d.lqe.dummy = false ∧
    ∃ (k : Nat) (f : Flit C), s.added[k]? = some f ∧ d.lqe = f.lqe ∧ d.dest = f.dest
  oneEach : ∀ c ∈ s.calls, (c.2.map fun f => cfg.num f.dest).Nodup
  inOrder : ∀ (p : Nat) (cls : NocPriority) (d : C),
    s.served.filter (lane p cls d) <+: s.queued.filter (lane p cls d)

/-- Elements brought in by a call, as opposed to the dummies built by the crossbar. -/
def stamped (f : Flit C) : Bool := f.lqe.serial.isSome

structure Inv [DecidableEq C] (cfg : CrossbarConfig C) (s : System C) : Prop where
  eventsOrdered : ∀ cls, Multimap.Ordered (s.xbar.events cls)
  keys : ∀ cls, ∀ e ∈ s.xbar.events cls, e.1 ∈ s.scheduled
  routable : ∀ cls, ∀ e ∈ s.xbar.events cls, ∃ f, flit cfg cls e.2 = .ok f
  queuesOrdered : QueuesOrdered s.xbar.queues
  ports : ∀ p, cfg.numPorts ≤ p → s.xbar.queues p = []
  top : 0 < cfg.numPorts → s.xbar.topPriority < cfg.numPorts
  waking : ∀ p, s.xbar.queues p ≠ [] → s.scheduled.Nonempty
  lanes : ∀ (p : Nat) (cls : NocPriority) (d : C), s.queued.filter (lane p cls d) =
    s.served.filter (lane p cls d) ++ (waiting s.xbar.queues p).filter (lane p cls d)
  ledger : ((inEvents cfg s.xbar ++ s.queued).filter stamped).Perm s.added
  serials : ∀ (k : Nat) (f : Flit C), s.added[k]? = some f → f.lqe.serial = some k
  unstamped : ∀ f ∈ inEvents cfg s.xbar ++ s.queued, f.lqe.serial = none → f.lqe.dummy = true
  oneEach : ∀ c ∈ s.calls, (c.2.map fun f => cfg.num f.dest).Nodup

theorem inv_init [DecidableEq C] (cfg : CrossbarConfig C) : Inv cfg ({} : System C) where
  eventsOrdered cls := by cases cls <;> exact Multimap.ordered_nil
  keys cls e he := by cases cls <;> cases he
  routable cls e he := by cases cls <;> cases he
  queuesOrdered _ := Multimap.ordered_nil
  ports _ _ := rfl
  top h := h
  waking _ h := absurd rfl h
  lanes _ _ _ := rfl
  ledger := List.Perm.refl _
  serials k f h := by simp at h
  unstamped f hf := by simp [inEvents, eventFlits] at hf
  oneEach c hc := by cases hc

/-- What an `add` function does: one class gains entries under one key, the queues stay. -/
structure Adds (cfg : CrossbarConfig C) (cls : NocPriority) (t : Nat) (source : C)
    (x x' : Crossbar C) (new : List (Lqe C)) : Prop where
  ordered : Multimap.Ordered (x.events cls) → Multimap.Ordered (x'.events cls)
  perm : (x'.events cls).Perm (new.map (fun lqe => (align cfg t, lqe, source)) ++ x.events cls)
  others : ∀ cls' ≠ cls, x'.events cls' = x.events cls'
  queues : x'.queues = x.queues
  top : x'.topPriority = x.topPriority

theorem addEvent_adds (cfg : CrossbarConfig C) (cls : NocPriority) (x : Crossbar C) (t : Nat)
    (lqe : Lqe C) (source : C) :
      Adds cfg cls t source x (addEvent cfg cls x t lqe source) [lqe] where
  ordered h := by
    cases cls <;> exact Multimap.insert_ordered h
  perm := by
    cases cls <;> exact Multimap.insert_perm _ _ _
  others cls' h := by
    cases cls <;> cases cls' <;> first | rfl | exact absurd rfl h
  queues := by cases cls <;> rfl
  top := by cases cls <;> rfl

theorem Adds.trans {cfg : CrossbarConfig C} {cls : NocPriority} {t : Nat} {source : C}
    {x y z : Crossbar C} {a b : List (Lqe C)} (h : Adds cfg cls t source x y a)
    (h' : Adds cfg cls t source y z b) : Adds cfg cls t source x z (b ++ a) where
  ordered ho := h'.ordered (h.ordered ho)
  perm := by
    rw [List.map_append, List.append_assoc]
    exact h'.perm.trans (h.perm.append_left _)
  others cls' hc := (h'.others cls' hc).trans (h.others cls' hc)
  queues := h'.queues.trans h.queues
  top := h'.top.trans h.top

theorem Adds.count {cfg : CrossbarConfig C} {cls : NocPriority} {t : Nat} {source : C}
    {x y : Crossbar C} {a : List (Lqe C)} (h : Adds cfg cls t source x y a) :
    Adds cfg cls t source x (y.count cls) a := by
  have same : ∀ c, (y.count cls).events c = y.events c := by
    intro c
    cases cls <;> cases c <;> rfl
  refine ⟨fun ho => ?_, ?_, fun c hc => ?_, ?_, ?_⟩
  · rw [same]; exact h.ordered ho
  · rw [same]; exact h.perm
  · rw [same]; exact h.others c hc
  · rw [← h.queues]; cases cls <;> rfl
  · rw [← h.top]; cases cls <;> rfl

theorem Adds.refl (cfg : CrossbarConfig C) (cls : NocPriority) (t : Nat) (source : C)
    (x : Crossbar C) : Adds cfg cls t source x x [] :=
  ⟨id, List.Perm.refl _, fun _ _ => rfl, rfl, rfl⟩

theorem addDummies_adds (cfg : CrossbarConfig C) (cls : NocPriority) (t : Nat) (lqe : Lqe C)
    (source : C) (n : Nat) (x : Crossbar C) :
    Adds cfg cls t source x (addDummies cfg cls t lqe source n x)
      (List.replicate n (dummyOf lqe)) := by
  induction n generalizing x with
  | zero => exact Adds.refl cfg cls t source x
  | succ n ih =>
    have step := (addEvent_adds cfg cls x t (dummyOf lqe) source).count
    rw [List.replicate_succ']
    exact step.trans (ih _)

theorem addForm_adds (cfg : CrossbarConfig C) (cls : NocPriority) (form : Form) (x : Crossbar C)
    (t : Nat) (lqe : Lqe C) (source : C) :
    ∃ n, Adds cfg cls t source x (addForm cfg cls form x t lqe source)
      (lqe :: List.replicate n (dummyOf lqe)) := by
  cases form with
  | single => exact ⟨0, addEvent_adds cfg cls x t lqe source⟩
  | flits n =>
    simp only [addForm, addFlits]
    generalize (n + 2 ^ 32 - 1) % 2 ^ 32 = m
    have both := (addDummies_adds cfg cls t lqe source m x).trans
      (addEvent_adds cfg cls _ t lqe source)
    refine ⟨m, both.ordered, both.perm, ?_, both.queues, both.top⟩
    exact both.others

theorem flit_dummyOf {cfg : CrossbarConfig C} {cls : NocPriority} {lqe : Lqe C} {source : C}
    {f : Flit C} (h : flit cfg cls (lqe, source) = .ok f) :
    flit cfg cls (dummyOf lqe, source) = .ok { f with lqe := carried cls (dummyOf lqe) } := by
  have same : destination cfg cls (dummyOf lqe) = destination cfg cls lqe := by cases cls <;> rfl
  simp only [flit, same] at h ⊢
  split at h
  · cases h
  · split at h
    · rename_i hn
      cases h
      simp [hn]
    · cases h

theorem eventFlits_append (cfg : CrossbarConfig C) (cls : NocPriority)
    (a b : List (Nat × Lqe C × C)) :
    eventFlits cfg cls (a ++ b) = eventFlits cfg cls a ++ eventFlits cfg cls b :=
  List.filterMap_append

theorem Adds.inEvents {cfg : CrossbarConfig C} {cls : NocPriority} {t : Nat} {source : C}
    {x y : Crossbar C} {a : List (Lqe C)} (h : Adds cfg cls t source x y a) :
    (inEvents cfg y).Perm
      (eventFlits cfg cls (a.map fun lqe => (align cfg t, lqe, source)) ++ inEvents cfg x) := by
  have same := h.others
  have perm : (eventFlits cfg cls (y.events cls)).Perm _ := h.perm.filterMap _
  rw [← eventFlits, eventFlits_append] at perm
  cases cls with
  | rep =>
    have crq : y.crqEvents = x.crqEvents := same .crq (by decide)
    have req : y.reqEvents = x.reqEvents := same .req (by decide)
    simp only [Crossbar.inEvents, crq, req, ← List.append_assoc]
    exact (perm.append_right _).append_right _
  | crq =>
    have rep : y.repEvents = x.repEvents := same .rep (by decide)
    have req : y.reqEvents = x.reqEvents := same .req (by decide)
    simp only [Crossbar.inEvents, rep, req, List.append_assoc]
    refine ((perm.append_right _).append_left _).trans ?_
    rw [List.append_assoc]
    exact List.perm_append_comm_assoc _ _ _
  | req =>
    have rep : y.repEvents = x.repEvents := same .rep (by decide)
    have crq : y.crqEvents = x.crqEvents := same .crq (by decide)
    simp only [Crossbar.inEvents, rep, crq]
    refine (perm.append_left _).trans ?_
    exact List.perm_append_comm_assoc _ _ _

theorem flit_stamp {cfg : CrossbarConfig C} {s : System C} {cls : NocPriority} {lqe : Lqe C}
    {source : C} {f : Flit C} (h : flit cfg cls (s.stamp lqe, source) = .ok f) :
    f.lqe.serial = some s.added.length := by
  rw [flit_lqe h, carried_serial]
  rfl

theorem eventFlits_add {cfg : CrossbarConfig C} {cls : NocPriority} {t n : Nat} {lqe : Lqe C}
    {source : C} {f : Flit C} (h : flit cfg cls (lqe, source) = .ok f) :
    eventFlits cfg cls ((lqe :: List.replicate n (dummyOf lqe)).map
        fun lqe => (align cfg t, lqe, source)) =
      f :: List.replicate n { f with lqe := carried cls (dummyOf lqe) } := by
  simp only [eventFlits, List.map_cons, List.filterMap_cons, h, Except.toOption, List.map_replicate,
    List.cons.injEq, true_and]
  induction n with
  | zero => rfl
  | succ n ih =>
    rw [List.replicate_succ, List.filterMap_cons, flit_dummyOf h, ih]
    rfl

theorem inv_add [DecidableEq C] {cfg : CrossbarConfig C} {s : System C} (h : Inv cfg s)
    (cls : NocPriority) (form : Form) (t : Nat) (lqe : Lqe C) (source : C) (f : Flit C)
    (hf : flit cfg cls (s.stamp lqe, source) = .ok f) :
    Inv cfg (s.add cfg cls form t lqe source f) := by
  obtain ⟨n, adds⟩ := addForm_adds cfg cls form s.xbar t (s.stamp lqe) source
  have events : ∀ c, ∀ e ∈ (addForm cfg cls form s.xbar t (s.stamp lqe) source).events c,
      e ∈ s.xbar.events c ∨ c = cls ∧ e.1 = align cfg t ∧
        ∃ g, flit cfg cls e.2 = .ok g := by
    intro c e he
    by_cases hc : c = cls
    · subst hc
      rcases List.mem_append.mp (adds.perm.mem_iff.mp he) with he | he
      · obtain ⟨l, hl, rfl⟩ := List.mem_map.mp he
        refine .inr ⟨rfl, rfl, ?_⟩
        rcases List.mem_cons.mp hl with rfl | hl
        · exact ⟨f, hf⟩
        · rw [List.eq_of_mem_replicate hl]
          exact ⟨_, flit_dummyOf hf⟩
      · exact .inl he
    · rw [adds.others c hc] at he
      exact .inl he
  have flits := adds.inEvents
  rw [eventFlits_add hf] at flits
  have dummies : (List.replicate n { f with lqe := carried cls (dummyOf (s.stamp lqe)) }).filter
      stamped = [] := by
    simp [stamped, dummyOf]
  have real : stamped f = true := by simp [stamped, flit_stamp hf]
  refine
    { eventsOrdered := fun c => ?_
      keys := fun c e he => ?_
      routable := fun c e he => ?_
      queuesOrdered := ?_
      ports := ?_
      top := ?_
      waking := fun _ _ => Finset.insert_nonempty _ _
      lanes := ?_
      ledger := ?_
      serials := fun k g hg => ?_
      unstamped := fun g hg hs => ?_
      oneEach := h.oneEach }
  · by_cases hc : c = cls
    · subst hc
      exact adds.ordered (h.eventsOrdered c)
    · exact (adds.others c hc).symm ▸ h.eventsOrdered c
  · rcases events c e he with he | ⟨-, he, -⟩
    · exact Finset.mem_insert_of_mem (h.keys c e he)
    · exact he ▸ Finset.mem_insert_self _ _
  · rcases events c e he with he | ⟨rfl, -, he⟩
    · exact h.routable c e he
    · exact he
  · exact adds.queues.symm ▸ h.queuesOrdered
  · exact adds.queues.symm ▸ h.ports
  · exact adds.top.symm ▸ h.top
  · exact adds.queues.symm ▸ h.lanes
  · have all := (flits.append_right s.queued).filter stamped
    rw [List.append_assoc, List.cons_append, List.filter_cons, if_pos real,
      @List.filter_append _ _ (List.replicate _ _), dummies, List.nil_append] at all
    exact (all.trans (h.ledger.cons f)).trans (List.perm_append_singleton f s.added).symm
  · rcases Nat.lt_trichotomy k s.added.length with hk | hk | hk
    · exact h.serials k g (by rwa [System.add, List.getElem?_append_left hk] at hg)
    · subst hk
      simp only [System.add, List.getElem?_concat_length, Option.some.injEq] at hg
      exact hg ▸ flit_stamp hf
    · simp [System.add, List.getElem?_eq_none
        (show (s.added ++ [f]).length ≤ k by simp; omega)] at hg
  · rw [List.mem_append] at hg
    rcases hg with hg | hg
    · rcases List.mem_append.mp (flits.mem_iff.mp hg) with hg | hg
      · rcases List.mem_cons.mp hg with rfl | hg
        · rw [flit_stamp hf] at hs
          cases hs
        · rw [List.eq_of_mem_replicate hg]
          simp [dummyOf]
      · exact h.unstamped g (List.mem_append_left _ hg) hs
    · exact h.unstamped g (List.mem_append_right _ hg) hs

theorem anyQueued_eq_true {cfg : CrossbarConfig C} {qs : Queues C} :
    anyQueued cfg qs = true ↔ ∃ p < cfg.numPorts, qs p ≠ [] := by
  simp [anyQueued]

theorem le_of_first {s : Finset Nat} {t : Nat} (h : first s = some t) : ∀ a ∈ s, t ≤ a := by
  unfold first at h
  split at h
  · cases h
    exact fun a ha => Finset.min'_le s a ha
  · cases h

def dispatched (cfg : CrossbarConfig C) (s : System C) (t : Nat) : System C :=
  { s with
    xbar := after cfg s.xbar t
    scheduled := s.scheduled.erase t ∪
      (if anyQueued cfg (arbitrate cfg s.xbar t).queues then some (t + cfg.processInterval)
        else none).toFinset
    queued := s.queued ++ arrivals cfg s.xbar t
    calls := s.calls ++ [(t, (arbitrate cfg s.xbar t).served)] }

theorem dispatch_eq {cfg : CrossbarConfig C} {s : System C} (t : Nat)
    (h : ∀ cls, ∀ e ∈ s.xbar.events cls, ∃ f, flit cfg cls e.2 = .ok f) :
    s.dispatch cfg t = .ok (dispatched cfg s t) := by
  rw [System.dispatch, processEvent_eq h]
  rfl

theorem dispatched_served (cfg : CrossbarConfig C) (s : System C) (t : Nat) :
    (dispatched cfg s t).served = s.served ++ (arbitrate cfg s.xbar t).served := by
  simp [System.served, dispatched]

section Dispatch
variable [DecidableEq C] {cfg : CrossbarConfig C} {s : System C} {t : Nat}

theorem dispatched_perm (h : Inv cfg s) (ht : first s.scheduled = some t) :
    (inEvents cfg (dispatched cfg s t).xbar ++ (dispatched cfg s t).queued).Perm
      (inEvents cfg s.xbar ++ s.queued) := by
  have early : ∀ cls, ∀ e ∈ s.xbar.events cls, t ≤ e.1 :=
    fun cls e he => le_of_first ht _ (h.keys cls e he)
  have moved := (inEvents_after cfg h.eventsOrdered early).append_right s.queued
  rw [List.append_assoc] at moved
  exact (moved.trans (List.perm_append_comm.append_left _)).symm

theorem arbitrate_ports (h : Inv cfg s) (p : Nat) (hp : cfg.numPorts ≤ p) :
    (arbitrate cfg s.xbar t).queues p = [] := by
  have sub := (arbitrate_serving cfg s.xbar t).sublist p
  rw [pushes_eq_nil _ (h.ports p hp) fun f hf => ?_] at sub
  · exact List.sublist_nil.mp sub
  · have := arrivals_port hf
    omega

theorem inv_dispatched (h : Inv cfg s) (ht : first s.scheduled = some t) :
    Inv cfg (dispatched cfg s t) where
  eventsOrdered cls := by
    rw [dispatched, after_events]
    exact Multimap.erase_ordered (h.eventsOrdered cls)
  keys cls e he := by
    rw [dispatched, after_events] at he
    obtain ⟨he, hne⟩ := Multimap.mem_of_mem_erase he
    exact Finset.mem_union_left _ (Finset.mem_erase.mpr ⟨hne, h.keys cls e he⟩)
  routable cls e he := by
    rw [dispatched, after_events] at he
    exact h.routable cls e (Multimap.mem_of_mem_erase he).1
  queuesOrdered p := by
    have ordered := pushes_ordered h.queuesOrdered (arrivals cfg s.xbar t) p
    exact ordered.sublist ((arbitrate_serving cfg s.xbar t).sublist p)
  ports p hp := arbitrate_ports h p hp
  top hn := by
    change (if s.xbar.clockwise then s.xbar.topPriority
      else (s.xbar.topPriority + 1) % cfg.numPorts) < cfg.numPorts
    split
    · exact h.top hn
    · exact Nat.mod_lt _ hn
  waking p hp := by
    have hlt : p < cfg.numPorts := by
      by_contra hge
      exact hp (arbitrate_ports h p (by omega))
    have any : anyQueued cfg (arbitrate cfg s.xbar t).queues = true :=
      anyQueued_eq_true.mpr ⟨p, hlt, hp⟩
    exact ⟨t + cfg.processInterval, Finset.mem_union_right _ (by simp [any])⟩
  lanes p cls d := by
    have call := (arbitrate_serving cfg s.xbar t).lanes p cls d
    rw [pushes_lane h.queuesOrdered] at call
    rw [dispatched_served, List.filter_append, List.append_assoc]
    refine Eq.trans ?_ (congrArg _ call)
    rw [← List.append_assoc, ← h.lanes p cls d]
    exact List.filter_append _ _
  ledger := ((dispatched_perm h ht).filter stamped).trans h.ledger
  serials := h.serials
  unstamped f hf := h.unstamped f ((dispatched_perm h ht).mem_iff.mp hf)
  oneEach c hc := by
    rcases List.mem_append.mp hc with hc | hc
    · exact h.oneEach c hc
    · rw [List.mem_singleton.mp hc]
      exact (arbitrate_serving cfg s.xbar t).nodup

end Dispatch

theorem inv_next [DecidableEq C] {cfg : CrossbarConfig C} {s : System C} (h : Inv cfg s) :
    ∃ s', s.next cfg = .ok s' ∧ Inv cfg s' := by
  unfold System.next
  split
  · exact ⟨s, rfl, h⟩
  · rename_i t ht
    exact ⟨_, dispatch_eq t h.routable, inv_dispatched h ht⟩

theorem run_inv [DecidableEq C] {cfg : CrossbarConfig C} {s : System C} (h : System.Run cfg s) :
    Inv cfg s := by
  induction h with
  | init => exact inv_init cfg
  | add cls form t lqe source f _ _ hf ih => exact inv_add ih cls form t lqe source f hf
  | next _ hs ih =>
    obtain ⟨s', hs', inv⟩ := inv_next ih
    rw [hs] at hs'
    cases hs'
    exact inv

def timed (s : System C) : List (Nat × Flit C) := s.calls.flatMap fun c => c.2.map fun f => (c.1, f)

theorem served_eq_timed (s : System C) : s.served = (timed s).map (·.2) := by
  simp [System.served, timed, List.map_flatMap, Function.comp_def]

theorem deliveries_eq_timed (cfg : CrossbarConfig C) (s : System C) :
    s.deliveries cfg = (timed s).filterMap fun e => Flit.delivery cfg e.1 e.2 := by
  simp [System.deliveries, timed, List.filterMap_flatMap, List.filterMap_map]

theorem delivery_lqe {cfg : CrossbarConfig C} {t : Nat} {f : Flit C} {d : Delivery C}
    (h : Flit.delivery cfg t f = some d) : d.lqe = f.lqe := by
  unfold Flit.delivery at h
  split at h
  · cases h
  · cases h
    rfl

section Ledger
variable [DecidableEq C] {cfg : CrossbarConfig C} {s : System C}

theorem delivered_eq {k : Nat} {f : Flit C} (hd : f.lqe.dummy = false)
    (hk : ∀ g ∈ s.served, g.lqe.serial = some k ↔ g = f) :
    s.delivered cfg k = ((timed s).filter fun e => e.2 = f).map
      fun e => ⟨e.1 + cfg.xbarToDirT, f.dest, f.cls = .req, f.lqe⟩ := by
  rw [System.delivered, deliveries_eq_timed]
  rw [served_eq_timed] at hk
  generalize timed s = left at hk ⊢
  induction left with
  | nil => rfl
  | cons e l ih =>
    have tail := ih fun g hg => hk g (List.mem_cons_of_mem _ hg)
    have head := hk e.2 (by simp)
    by_cases hef : e.2 = f
    · have serial := head.mpr hef
      subst hef
      have handed : Flit.delivery cfg e.1 e.2 = some ⟨_, _, _, _⟩ := if_neg (by simp [hd])
      simp [handed, serial, tail]
    · have serial : ¬ e.2.lqe.serial = some k := fun hs => hef (head.mp hs)
      cases handed : Flit.delivery cfg e.1 e.2 with
      | none => simp [handed, hef, tail]
      | some d =>
        have lqe : d.lqe = e.2.lqe := delivery_lqe handed
        simp [handed, hef, lqe, serial, tail]

theorem added_nodup (h : Inv cfg s) : s.added.Nodup := by
  rw [List.nodup_iff_getElem?_ne_getElem?]
  intro i j hij hj heq
  have hf := List.getElem?_eq_getElem hj
  have := (h.serials i _ (heq.trans hf)).symm.trans (h.serials j _ hf)
  cases this
  omega

theorem queued_perm (h : Inv cfg s) :
    s.queued.Perm (s.served ++ inQueues cfg s.xbar.queues) := perm_of_lanes h.lanes h.ports

theorem served_serial (h : Inv cfg s) {k : Nat} {f g : Flit C} (hf : s.added[k]? = some f)
    (hg : g ∈ s.served) : g.lqe.serial = some k ↔ g = f := by
  constructor
  · intro hs
    have queued : g ∈ s.queued := (queued_perm h).mem_iff.mpr (List.mem_append_left _ hg)
    have mem : g ∈ (inEvents cfg s.xbar ++ s.queued).filter stamped :=
      List.mem_filter.mpr ⟨List.mem_append_right _ queued, by simp [stamped, hs]⟩
    obtain ⟨i, hi⟩ := List.mem_iff_getElem?.mp (h.ledger.mem_iff.mp mem)
    have := (h.serials i g hi).symm.trans hs
    cases this
    exact Option.some.inj (hi.symm.trans hf)
  · rintro rfl
    exact h.serials k g hf

theorem added_count (h : Inv cfg s) {k : Nat} {f : Flit C} (hf : s.added[k]? = some f) :
    (inEvents cfg s.xbar ++ inQueues cfg s.xbar.queues).count f + s.served.count f = 1 := by
  have real : stamped f = true := by simp [stamped, h.serials k f hf]
  have one : s.added.count f = 1 :=
    List.count_eq_one_of_mem (added_nodup h) (List.mem_of_getElem? hf)
  have all := h.ledger.count_eq f
  rw [List.count_filter real, one, List.count_append, (queued_perm h).count_eq f,
    List.count_append] at all
  rw [List.count_append]
  omega

theorem inv_once (h : Inv cfg s) {k : Nat} {f : Flit C} (hf : s.added[k]? = some f)
    (hd : f.lqe.dummy = false) :
    (f ∈ inEvents cfg s.xbar ++ inQueues cfg s.xbar.queues ∧ s.delivered cfg k = []) ∨
    (f ∉ inEvents cfg s.xbar ++ inQueues cfg s.xbar.queues ∧
      ∃ t, s.delivered cfg k = [⟨t + cfg.xbarToDirT, f.dest, f.cls = .req, f.lqe⟩]) := by
  have total := added_count h hf
  have length : ((timed s).filter fun e => e.2 = f).length = s.served.count f := by
    rw [served_eq_timed, List.count_eq_length_filter, List.filter_map, List.length_map]
    congr 1
  rw [delivered_eq hd fun g hg => served_serial h hf hg]
  by_cases inside : f ∈ inEvents cfg s.xbar ++ inQueues cfg s.xbar.queues
  · have pos := List.count_pos_iff.mpr inside
    refine .inl ⟨inside, ?_⟩
    rw [List.length_eq_zero_iff.mp (length.trans (by omega)), List.map_nil]
  · have none := List.count_eq_zero_of_not_mem inside
    obtain ⟨e, he⟩ := List.length_eq_one_iff.mp (length.trans (by omega))
    exact .inr ⟨inside, e.1, by rw [he, List.map_singleton]⟩

theorem inv_correct (h : Inv cfg s) : Correct cfg s where
  once _ _ hf hd := inv_once h hf hd
  known d hd := by
    rw [deliveries_eq_timed, List.mem_filterMap] at hd
    obtain ⟨e, he, hd⟩ := hd
    have hs : e.2 ∈ s.served := served_eq_timed s ▸ List.mem_map_of_mem he
    unfold Flit.delivery at hd
    split at hd
    · cases hd
    · rename_i dummy
      cases hd
      refine ⟨by simpa using dummy, ?_⟩
      have queued : e.2 ∈ inEvents cfg s.xbar ++ s.queued :=
        List.mem_append_right _ ((queued_perm h).mem_iff.mpr (List.mem_append_left _ hs))
      have real : stamped e.2 = true := by
        cases hserial : e.2.lqe.serial with
        | none => exact absurd (h.unstamped e.2 queued hserial) dummy
        | some _ => simp [stamped, hserial]
      obtain ⟨k, hk⟩ := List.mem_iff_getElem?.mp
        (h.ledger.mem_iff.mp (List.mem_filter.mpr ⟨queued, real⟩))
      exact ⟨k, e.2, hk, rfl, rfl⟩
  oneEach := h.oneEach
  inOrder p cls d := by
    rw [h.lanes p cls d]
    exact List.prefix_append _ _

end Ledger

/-- Steps of the token until `clockwise` is false with top priority 0. In that phase the
unsigned subtraction visits every port, whatever `num_ports` is. -/
def phaseDistance (cfg : CrossbarConfig C) (x : Crossbar C) : Nat :=
  let phase := 2 * x.topPriority + if x.clockwise then 0 else 1
  if phase ≤ 1 then 1 - phase else 2 * cfg.numPorts + 1 - phase

theorem phaseDistance_after {cfg : CrossbarConfig C} {x : Crossbar C} (t : Nat)
    (htop : x.topPriority < cfg.numPorts) (h : phaseDistance cfg x ≠ 0) :
    phaseDistance cfg (after cfg x t) + 1 = phaseDistance cfg x := by
  unfold phaseDistance at h ⊢
  cases hc : x.clockwise with
  | true =>
    simp only [after, hc, Bool.not_true, if_true, Bool.false_eq_true, if_false] at h ⊢
    split_ifs at h ⊢ <;> omega
  | false =>
    simp only [after, hc, Bool.not_false, if_true, Bool.false_eq_true, if_false] at h ⊢
    rcases Nat.lt_or_ge (x.topPriority + 1) cfg.numPorts with hlt | hge
    · rw [Nat.mod_eq_of_lt hlt]
      split_ifs at h ⊢ <;> omega
    · have wrap : x.topPriority + 1 = cfg.numPorts := by omega
      rw [wrap, Nat.mod_self]
      split_ifs at h ⊢ <;> omega

theorem phaseDistance_lt {cfg : CrossbarConfig C} {x : Crossbar C}
    (htop : x.topPriority < cfg.numPorts) : phaseDistance cfg x < 2 * cfg.numPorts := by
  unfold phaseDistance
  simp only
  split_ifs <;> omega

theorem phaseDistance_eq_zero {cfg : CrossbarConfig C} {x : Crossbar C}
    (htop : x.topPriority < cfg.numPorts) (h : phaseDistance cfg x = 0) :
    x.clockwise = false ∧ x.topPriority = 0 := by
  unfold phaseDistance at h
  cases hc : x.clockwise <;> simp only [hc, if_true, Bool.false_eq_true, if_false] at h <;>
    split_ifs at h <;> first | omega | simp; omega

theorem mem_order {cfg : CrossbarConfig C} {x : Crossbar C} (hc : x.clockwise = false)
    (htop : x.topPriority = 0) {p : Nat} (hp : p < cfg.numPorts) :
    p ∈ (List.range cfg.numPorts).map (portIdx cfg x) := by
  have lt := cfg.ports_lt
  refine List.mem_map.mpr ⟨(cfg.numPorts - p) % cfg.numPorts, ?_, ?_⟩
  · exact List.mem_range.mpr (Nat.mod_lt _ (by omega))
  · rcases Nat.eq_zero_or_pos p with rfl | hpos
    · rw [Nat.sub_zero, Nat.mod_self]
      simp only [portIdx, hc, htop, Bool.false_eq_true, if_false, Nat.zero_add, Nat.sub_zero]
      rw [Nat.add_mod_right, Nat.mod_eq_of_lt lt, Nat.mod_self]
    · rw [Nat.mod_eq_of_lt (show cfg.numPorts - p < cfg.numPorts by omega)]
      have idx : x.topPriority + cfg.numPorts + (2 ^ 32 - (cfg.numPorts - p)) = 2 ^ 32 + p := by
        omega
      simp only [portIdx, hc, Bool.false_eq_true, if_false]
      rw [idx, Nat.add_mod_left, Nat.mod_eq_of_lt (show p < 2 ^ 32 by omega), Nat.mod_eq_of_lt hp]

section Drain
variable [DecidableEq C] {cfg : CrossbarConfig C} {s : System C} {t : Nat}

def remaining (cfg : CrossbarConfig C) (s : System C) : Nat :=
  (inEvents cfg s.xbar ++ s.queued).length - s.served.length

/-- The distance to a call that is sure to send, if anything is queued. -/
def delay (cfg : CrossbarConfig C) (s : System C) : Nat :=
  if anyQueued cfg s.xbar.queues then phaseDistance cfg s.xbar else 2 * cfg.numPorts

theorem served_length_le (h : Inv cfg s) : s.served.length ≤ s.queued.length := by
  rw [(queued_perm h).length_eq, List.length_append]
  omega

theorem dispatched_remaining (h : Inv cfg s) (ht : first s.scheduled = some t) :
    remaining cfg (dispatched cfg s t) + (arbitrate cfg s.xbar t).served.length =
      remaining cfg s := by
  have total := (dispatched_perm h ht).length_eq
  have before := served_length_le h
  have later := served_length_le (inv_dispatched h ht)
  unfold remaining
  rw [total]
  rw [dispatched_served, List.length_append] at later ⊢
  rw [List.length_append, List.length_append] at total
  rw [List.length_append]
  omega

/-- A call that sends nothing leaves more queued, or comes nearer to one that sends, or the
crossbar is idle and has one tick less ahead of it. -/
theorem dispatched_idle (h : Inv cfg s) (ht : first s.scheduled = some t)
    (hs : (arbitrate cfg s.xbar t).served = []) :
    delay cfg (dispatched cfg s t) < delay cfg s ∨
      delay cfg (dispatched cfg s t) = delay cfg s ∧
        (dispatched cfg s t).scheduled.card < s.scheduled.card := by
  have same := ((arbitrate_serving cfg s.xbar t).idle hs).1
  by_cases later : anyQueued cfg (arbitrate cfg s.xbar t).queues = true
  · obtain ⟨p, hp, hq⟩ := anyQueued_eq_true.mp later
    have htop := h.top (by omega)
    have near : delay cfg (dispatched cfg s t) = phaseDistance cfg (after cfg s.xbar t) :=
      if_pos later
    refine .inl ?_
    by_cases before : anyQueued cfg s.xbar.queues = true
    · have far : delay cfg s = phaseDistance cfg s.xbar := if_pos before
      have pos : phaseDistance cfg s.xbar ≠ 0 := by
        intro zero
        obtain ⟨hc, hz⟩ := phaseDistance_eq_zero htop zero
        rw [same] at hq
        exact serveAll_served (serving_init cfg _) (mem_order hc hz hp) hq hs
      have step := phaseDistance_after t htop pos
      omega
    · have far : delay cfg s = 2 * cfg.numPorts := if_neg before
      rw [near, far]
      exact phaseDistance_lt ((inv_dispatched h ht).top (by omega))
  · refine .inr ⟨?_, ?_⟩
    · have before : ¬ anyQueued cfg s.xbar.queues = true := by
        intro hany
        obtain ⟨p, hp, hq⟩ := anyQueued_eq_true.mp hany
        refine later (anyQueued_eq_true.mpr ⟨p, hp, fun nil => hq ?_⟩)
        rw [same] at nil
        exact pushes_nil_left _ nil
      rw [delay, delay, if_neg before]
      exact if_neg later
    · have fewer : (dispatched cfg s t).scheduled = s.scheduled.erase t := by
        simp [dispatched, later]
      rw [fewer]
      exact Finset.card_erase_lt_of_mem (first_mem ht)

theorem run_drains {s : System C} (h : System.Run cfg s) :
    ∃ n s', s.drain cfg n = .ok s' ∧ System.Run cfg s' ∧
    s'.added = s.added ∧ s'.scheduled = ∅ := by
  cases ht : first s.scheduled with
  | none => exact ⟨0, s, rfl, h, rfl, first_eq_none.mp ht⟩
  | some t =>
    have inv := run_inv h
    have step : s.next cfg = .ok (dispatched cfg s t) := by
      rw [System.next, ht]
      exact dispatch_eq t inv.routable
    have fewer := dispatched_remaining inv ht
    have idle := dispatched_idle inv ht
    obtain ⟨n, s', hs', run, added, rest⟩ := run_drains (h.next step)
    refine ⟨n + 1, s', ?_, run, added, rest⟩
    rw [System.drain, step]
    exact hs'
termination_by (remaining cfg s, delay cfg s, s.scheduled.card)
decreasing_by
  by_cases hs : (arbitrate cfg s.xbar t).served = []
  · rw [hs, List.length_nil, Nat.add_zero] at fewer
    rw [fewer]
    refine Prod.Lex.right _ ?_
    rcases idle hs with hd | ⟨hd, hc⟩
    · exact Prod.Lex.left _ _ hd
    · rw [hd]
      exact Prod.Lex.right _ hc
  · have pos := List.length_pos_iff.mpr hs
    exact Prod.Lex.left _ _ (by omega)

theorem inside_eq_nil (h : Inv cfg s) (hs : s.scheduled = ∅) :
    inEvents cfg s.xbar ++ inQueues cfg s.xbar.queues = [] := by
  have events : ∀ cls, s.xbar.events cls = [] := by
    intro cls
    refine List.eq_nil_iff_forall_not_mem.mpr fun e he => ?_
    have := h.keys cls e he
    rw [hs] at this
    cases this
  have queues : ∀ p, s.xbar.queues p = [] := by
    intro p
    by_contra hp
    have := h.waking p hp
    rw [hs] at this
    exact Finset.not_nonempty_empty this
  have rep := events .rep
  have crq := events .crq
  have req := events .req
  simp only [Crossbar.events] at rep crq req
  simp [inEvents, eventFlits, rep, crq, req, inQueues, waiting, queues]

/-- Delivery through the crossbar: in every run nothing is lost, duplicated, misdelivered or
reordered in its lane, and once no more is added the scheduled dispatches deliver everything. -/
theorem run_delivers (h : System.Run cfg s) :
    Correct cfg s ∧ ∃ n s', s.drain cfg n = .ok s' ∧ s'.added = s.added ∧ s'.scheduled = ∅ ∧
      Correct cfg s' ∧ ∀ (k : Nat) (f : Flit C), s.added[k]? = some f → f.lqe.dummy = false →
        ∃ t, s'.delivered cfg k = [⟨t + cfg.xbarToDirT, f.dest, f.cls = .req, f.lqe⟩] := by
  refine ⟨inv_correct (run_inv h), ?_⟩
  obtain ⟨n, s', hs', run, added, rest⟩ := run_drains h
  have inv := run_inv run
  refine ⟨n, s', hs', added, rest, inv_correct inv, fun k f hf hd => ?_⟩
  rcases inv_once inv (added.symm ▸ hf) hd with ⟨inside, -⟩ | ⟨-, done⟩
  · rw [inside_eq_nil inv rest] at inside
    cases inside
  · exact done

end Drain

def twoPorts : CrossbarConfig Nat where
  processInterval := 10
  interval_pos := by decide
  numPorts := 2
  ports_lt := by decide
  xbarToDirT := 90
  num := id
  directory := fun _ => 1
  whichMc := fun _ => 0

def twoSends : System Nat :=
  ((({} : System Nat).add twoPorts .rep (.flits 2) 5
    { path := [1], type := .dirRd, address := 64 } 0
      ⟨0, .rep, { path := [1], type := .dirRd, address := 64, serial := some 0 }, 1⟩).add
        twoPorts .req
    .single 10 { path := [0], type := .read, address := 64 } 0
    ⟨0, .req, { path := [0], type := .read, address := 64, serial := some 1 }, 1⟩)

theorem run_delivers_two_sends : Correct twoPorts twoSends ∧
    ∃ n s', twoSends.drain twoPorts n = .ok s' ∧ s'.added = twoSends.added ∧ s'.scheduled = ∅ ∧
      Correct twoPorts s' ∧ ∀ (k : Nat) (f : Flit Nat), twoSends.added[k]? = some f →
        f.lqe.dummy = false →
        ∃ t, s'.delivered twoPorts k = [⟨t + twoPorts.xbarToDirT, f.dest, f.cls = .req, f.lqe⟩] :=
  run_delivers (.add _ _ _ _ _ _ (.add _ _ _ _ _ _ .init ⟨by decide, by decide, by decide⟩ rfl)
    trivial rfl)

end McSim.Crossbar
