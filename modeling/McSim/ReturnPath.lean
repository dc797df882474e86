import McSim.NackAccounting
import McSim.RoutesDirectory
import McSim.RoutesL1
import McSim.RoutesL2

/-! The way back.
In a machine that is laid out, everything that is handed to a component fits it, and what is handed
to a core is the answer to a request of that core, with nothing but the core left on its stack. -/

namespace McSim

open Contract Routes

variable {C : Type} {r : Routes C}

namespace Crossbar

variable {cfg : CrossbarConfig C} {x : Crossbar C} {t : Nat} {cls : NocPriority} {lqe : Lqe C}

theorem orderly_init : Orderly r cfg ({} : Crossbar C) where
  events cls e he := by cases cls <;> cases he
  queues _ _ he := by cases he

theorem Orderly.count (h : Orderly r cfg x) (cls : NocPriority) : Orderly r cfg (x.count cls) := by
  cases cls <;> exact ⟨fun cls e he => h.events cls e (by cases cls <;> exact he), h.queues⟩

theorem Orderly.addEvent (h : Orderly r cfg x) (hl : lqe.dummy ∨ r.Passes cfg cls lqe)
    (source : C) :
    Orderly r cfg (addEvent cfg cls x t lqe source) := by
  have new : ∀ cls', ∀ e ∈ Multimap.insert (align cfg t) (lqe, source) (x.events cls'), cls' = cls →
      e.2.1.dummy ∨ r.Passes cfg cls' e.2.1 := by
    rintro cls' e he rfl
    rcases Multimap.mem_insert.mp he with rfl | he
    · exact hl
    · exact h.events _ e he
  refine ⟨fun cls' e he => ?_, ?_⟩
  · cases cls <;> cases cls' <;> first | exact new _ e he rfl | exact h.events _ e he
  · cases cls <;> exact h.queues

theorem Orderly.addDummies (h : Orderly r cfg x) (source : C) (n : Nat) :
    Orderly r cfg (addDummies cfg cls t lqe source n x) := by
  induction n generalizing x with
  | zero => exact h
  | succ n ih => exact ih ((h.addEvent (.inl rfl) source).count cls)

theorem Orderly.addFlits (h : Orderly r cfg x) (hl : lqe.dummy ∨ r.Passes cfg cls lqe) (n : Nat)
    (source : C) : Orderly r cfg (addFlits cfg cls x t lqe n source) := by
  have added : Orderly r cfg (Crossbar.addEvent cfg cls
      (Crossbar.addDummies cfg cls t lqe source ((n + 2 ^ 32 - 1) % 2 ^ 32) x) t lqe source) :=
    (h.addDummies source _).addEvent hl source
  exact ⟨fun cls e he => added.events cls e (by cases cls <;> exact he), added.queues⟩

theorem handed_sent {served : List (Flit C)}
    (h : ∀ f ∈ served, f.lqe.dummy ∨ r.Arrives f.dest (handedAs f.cls) f.lqe) :
    r.Sent (handed cfg t served) := by
  intro call hc
  obtain ⟨d, hd, rfl⟩ := List.mem_map.mp hc
  obtain ⟨f, hf, out⟩ := List.mem_filterMap.mp hd
  unfold Flit.delivery at out
  split at out
  · cases out
  · rename_i real
    cases out
    have arrives := (h f hf).resolve_left real
    refine fits_of_arrives ?_
    cases hcls : f.cls <;> rw [hcls] at arrives <;> exact arrives

theorem processEvent_sent (h : Orderly r cfg x) : Meets (fun _ => True)
    (fun p => Orderly r cfg p.xbar ∧ r.Sent (handed cfg t p.served)) (processEvent cfg x t) := by
  have kept := @processEvent_forall _ cfg t (fun e => e.2.1.dummy ∨
    r.Arrives e.2.2 (handedAs e.1) e.2.1)
    (fun cls e => e.1.dummy ∨ r.Passes cfg cls e.1) x (fun cls e f he hf => ?_) h.events h.queues
  · exact kept.mono (fun p all => ⟨⟨all.1, all.2.1⟩, handed_sent all.2.2⟩) fun _ h => h
  · obtain ⟨-, rfl, hl, hd⟩ := flit_spec hf
    rw [hl]
    rcases he with dummy | passes
    · refine .inl ?_
      cases f.cls <;> exact dummy
    · exact .inr (passes f.dest hd)

end Crossbar

namespace MemoryController

variable {cfg : McConfig C} {s : MemoryController C} {t : Nat} {lqe : Lqe C}

theorem reply_sent (isDir : r.IsDirectory cfg.directory) (h : r.McMessage cfg.directory lqe)
    (back : isEvict lqe.type = false) : r.Sent [reply cfg t lqe] := by
  rcases h with evict | ⟨-, reply⟩
  · rw [back] at evict
    cases evict
  · exact Sent.one (fits_directory isDir rfl reply)

theorem addReqEvent_sent (isDir : r.IsDirectory cfg.directory) (h : Orderly r cfg s)
    (hl : r.McMessage cfg.directory lqe) :
    Orderly r cfg (s.addReqEvent cfg t lqe).1 ∧ r.Sent (s.addReqEvent cfg t lqe).2.calls := by
  unfold addReqEvent
  dsimp only
  split
  · split
    · exact ⟨⟨h.reqEvent, h.reqL⟩, .nil⟩
    · rename_i back
      exact ⟨⟨h.reqEvent, h.reqL⟩, reply_sent isDir hl (Bool.eq_false_iff.mpr back)⟩
  · split
    · split
      · exact ⟨⟨h.reqEvent, h.reqL⟩, .nil⟩
      · rename_i back
        exact ⟨⟨h.reqEvent, h.reqL⟩, reply_sent isDir hl (Bool.eq_false_iff.mpr back)⟩
    · exact ⟨⟨h.reqEvent.insert hl _, h.reqL⟩, .nil⟩

theorem answer_sent (isDir : r.IsDirectory cfg.directory) {log : List (Nat × McCommand × Lqe C)}
    (h : ∀ lqe ∈ served log, r.McMessage cfg.directory lqe) :
      r.Sent (log.flatMap (answer cfg)) := by
  intro call hc
  obtain ⟨e, he, mem⟩ := List.mem_flatMap.mp hc
  obtain ⟨t, command, lqe⟩ := e
  cases command with
  | activate | precharge => cases mem
  | column rank bank page isWrite auto =>
    have message := h lqe (List.mem_filterMap.mpr ⟨_, he, rfl⟩)
    change call ∈ (if isEvict lqe.type then [] else [reply cfg t (replied lqe)]) at mem
    split at mem
    · cases mem
    · rename_i back
      have same : replied lqe = lqe := by
        refine if_neg ?_
        rcases message with evict | ⟨other, -⟩
        · exact (back evict).elim
        · exact other
      rw [same] at mem
      exact reply_sent isDir message (Bool.eq_false_iff.mpr back) call mem

theorem processEvent_sent (isDir : r.IsDirectory cfg.directory) (h : Orderly r cfg s) :
    Meets (fun _ => True) (fun p => Orderly r cfg p.1 ∧ r.Sent p.2.calls)
      (processEvent cfg t s) := by
  refine processEvent_processed.mono (fun p processed => ?_) fun _ _ => trivial
  obtain ⟨⟨mc, done, prepared, does, calls, -, -⟩, -⟩ := processed
  have moves := McSystem.moves_does does
  have all : ∀ lqe ∈ mc.reqL, r.McMessage cfg.directory lqe := by
    rw [prepared.reqL]
    exact fun lqe mem => (List.mem_append.mp mem).elim (h.reqL lqe) (h.reqEvent.front t lqe)
  refine ⟨⟨?_, fun lqe mem => ?_⟩, ?_⟩
  · rw [moves.reqEvent, prepared.reqEvent]
    exact h.reqEvent.dropWhile t
  · exact all lqe (moves.once.mem_iff.mp (List.mem_append_left _ mem))
  · rw [calls, moves.calls]
    exact answer_sent isDir fun lqe mem =>
      all lqe (moves.once.mem_iff.mp (List.mem_append_right _ mem))

end MemoryController

namespace Part

variable {c : C} {t : Nat}

theorem orderly_init (c : C) (p : Part C) : p.Orderly r c p.init := by
  cases p with
  | core => trivial
  | cachel1 cfg n => exact Inbox.All.empty
  | cachel2 cfg n =>
    refine ⟨.empty, fun set e he => ?_⟩
    obtain ⟨way, -, rfl⟩ := List.mem_map.mp he
    exact ⟨fun l1 mem => absurd mem (Finset.notMem_empty l1), fun p hp => by cases hp⟩
  | directory cfg => exact ⟨.empty, fun line e he => (by cases he), fun line he => (by cases he),
      fun set key he => (by cases he)⟩
  | crossbar cfg => exact Crossbar.orderly_init
  | memoryController cfg => exact ⟨.nil, fun _ h => by cases h⟩

theorem add_sent {p : Part C} {s : p.State} {call : Call C} (laid : r.Laid) (source : C)
    (hp : r.part call.callee = p) (h : p.Orderly r call.callee s) (fits : r.Fits call) :
    Meets (fun _ => True) (fun q => p.Orderly r call.callee q.state ∧ r.Sent q.calls)
      (p.add source call s) := by
  have taken := (fits_iff hp).mp fits
  obtain ⟨callee, kind, time, lqe, flits⟩ := call
  cases p with
  | core => exact ⟨trivial, .nil⟩
  | cachel1 cfg n =>
    cases kind with
    | req => exact ⟨Inbox.All.addReq h taken _, .nil⟩
    | rep => exact ⟨Inbox.All.addRep h taken _, .nil⟩
    | crq => trivial
  | cachel2 cfg n =>
    cases kind with
    | req => exact ⟨⟨h.messages.addReq taken _, h.ways⟩, .nil⟩
    | rep => exact ⟨⟨h.messages.addRep taken _, h.ways⟩, .nil⟩
    | crq => trivial
  | directory cfg =>
    cases kind with
    | req => exact ⟨Directory.orderly_addReq h taken, .nil⟩
    | rep => exact ⟨Directory.orderly_addRep h taken, .nil⟩
    | crq => trivial
  | crossbar cfg =>
    cases kind with
    | req => exact ⟨Crossbar.Orderly.addEvent h (.inr taken) source, .nil⟩
    | crq | rep =>
      cases flits with
      | none => exact ⟨Crossbar.Orderly.addEvent h (.inr taken) source, .nil⟩
      | some n => exact ⟨Crossbar.Orderly.addFlits h (.inr taken) n source, .nil⟩
  | memoryController cfg =>
    have isDir := laid.memoryController callee cfg hp
    cases kind with
    | req => exact MemoryController.addReqEvent_sent isDir h taken
    | rep => exact taken.elim
    | crq => trivial

theorem process_sent [LinearOrder C] {p : Part C} {s : p.State} (laid : r.Laid) (hp : r.part c = p)
    (h : p.Orderly r c s) :
    Meets (fun _ => True) (fun q => p.Orderly r c q.state ∧ r.Sent q.calls) (p.process t s) := by
  cases p with
  | core => exact ⟨trivial, .nil⟩
  | cachel1 cfg n =>
    show Meets _ _ (CacheL1.processEvent cfg t s >>= _)
    rw [meets_bind]
    exact (CacheL1.processEvent_sent laid hp h).mono (fun _ h => h) fun _ h => h
  | cachel2 cfg n =>
    show Meets _ _ (CacheL2.processEvent cfg t s >>= _)
    rw [meets_bind]
    exact Meets.mono (CacheL2.processEvent_sent laid hp h) (fun _ h => h) fun _ h => h
  | directory cfg =>
    show Meets _ _ (Directory.processEvent cfg t s >>= _)
    rw [meets_bind]
    exact Meets.mono (Directory.processEvent_sent laid hp h) (fun _ h => h) fun _ h => h
  | crossbar cfg =>
    show Meets _ _ (Crossbar.processEvent cfg s t >>= _)
    rw [meets_bind]
    exact (Crossbar.processEvent_sent h).mono (fun _ h => h) fun _ h => h
  | memoryController cfg =>
    show Meets _ _ (MemoryController.processEvent cfg t s >>= _)
    rw [meets_bind]
    exact (MemoryController.processEvent_sent (laid.memoryController c cfg hp) h).mono
      (fun _ h => h)
      fun _ h => h

end Part

/-- The routes of a machine, for the homes of its addresses and those who have sent requests -/
abbrev Machine.routes (m : Machine C) (home : Nat → C) (issuer : Nat → Option C) : Routes C :=
  ⟨m.part, home, issuer⟩

def Machine.Laid (m : Machine C) (home : Nat → C) : Prop := (m.routes home fun _ => none).Laid

theorem Machine.Laid.routes {m : Machine C} {home : Nat → C} (laid : m.Laid home)
    (issuer : Nat → Option C) : (m.routes home issuer).Laid where
  home := laid.home
  cachel1 := laid.cachel1
  cachel2 := laid.cachel2
  directory := laid.directory
  crossbar := laid.crossbar
  memoryController := laid.memoryController

namespace System

variable {m : Machine C} {home : Nat → C} {issuer : Nat → Option C} {source : C}

def AllOrderly (r : Routes C) (state : (c : C) → (r.part c).State) : Prop :=
  ∀ c, (r.part c).Orderly r c (state c)

section Calls
variable [LinearOrder C] (laid : (m.routes home issuer).Laid)
include laid

omit laid in
theorem AllOrderly.update {state : (c : C) → (m.part c).State}
    (h : AllOrderly (m.routes home issuer) state) {c : C} {s : (m.part c).State}
    (hs : (m.part c).Orderly (m.routes home issuer) c s) :
    AllOrderly (m.routes home issuer) (Function.update state c s) := by
  intro d
  by_cases hd : d = c
  · subst hd
    rw [Function.update_self]
    exact hs
  · rw [Function.update_of_ne hd]
    exact h d

theorem place_sent {s : Midway m} {call : Call C} (h : AllOrderly (m.routes home issuer) s.state)
    (fits : (m.routes home issuer).Fits call) :
    Meets (fun _ => True)
      (fun p => AllOrderly (m.routes home issuer) p.1.state ∧ (m.routes home issuer).Sent p.2)
      (place source s call) := by
  unfold place
  rw [meets_bind]
  exact (Part.add_sent laid source rfl (h call.callee) fits).mono
    (fun q taken => ⟨h.update taken.1, taken.2⟩) fun _ h => h

theorem placeAll_sent (calls : List (Call C)) {s : Midway m}
    (h : AllOrderly (m.routes home issuer) s.state) (sent : (m.routes home issuer).Sent calls) :
    Meets (fun _ => True) (fun s' => AllOrderly (m.routes home issuer) s'.state)
      (placeAll source s calls) := by
  induction calls generalizing s with
  | nil => exact h
  | cons call calls ih =>
    unfold placeAll
    rw [meets_bind]
    refine (place_sent laid h (sent call List.mem_cons_self)).mono (fun p placed => ?_) fun _ h => h
    exact ih placed.1 fun c hc => sent c (List.mem_cons_of_mem call hc)

theorem post_sent (calls : List (Call C)) {s : Midway m}
    (h : AllOrderly (m.routes home issuer) s.state) (sent : (m.routes home issuer).Sent calls) :
    Meets (fun _ => True) (fun s' => AllOrderly (m.routes home issuer) s'.state)
      (post source s calls) := by
  induction calls generalizing s with
  | nil => exact h
  | cons call calls ih =>
    unfold post
    rw [meets_bind]
    refine (place_sent laid h (sent call List.mem_cons_self)).mono (fun p placed => ?_) fun _ h => h
    dsimp only
    rw [meets_bind]
    refine (placeAll_sent laid p.2 placed.1 placed.2).mono (fun s₁ answered => ?_) fun _ h => h
    exact ih answered fun c hc => sent c (List.mem_cons_of_mem call hc)

variable {s s' : System m} {c core cache : C} {t : Nat} {lqe : Lqe C}

theorem request_orderly (h : AllOrderly (m.routes home issuer) s.state)
    (hcore : m.part core = .core) (hcache : (m.part cache).isL1) (path : lqe.path = [core])
    (type : lqe.type = .read ∨ lqe.type = .write) (sender : issuer s.issued = some core)
    (step : s.request cache t lqe = .ok s') :
    AllOrderly (m.routes home issuer) s'.state := by
  have met : Meets (fun _ => True) (fun s' => AllOrderly (m.routes home issuer) s'.state)
      (s.request cache t lqe) := by
    unfold request
    dsimp only
    rw [meets_bind]
    refine (post_sent laid _ h (Sent.one ?_)).mono (fun mid placed => placed) fun _ h => h
    have req : (m.routes home issuer).L1Request { lqe with serial := some s.issued } :=
      ⟨type, s.issued, core, rfl, sender, hcore, path⟩
    cases hp : m.part cache with
    | cachel1 cfg n => exact fits_of_takes hp req
    | core | cachel2 | directory | crossbar | memoryController =>
      rw [hp] at hcache
      cases hcache
  exact met.of_ok step

theorem dispatch_orderly (h : AllOrderly (m.routes home issuer) s.state) {q : (m.part c).Result}
    (runs : (m.part c).process t (s.state c) = .ok q) (step : s.dispatch t c = .ok s') :
    AllOrderly (m.routes home issuer) s'.state ∧ (m.routes home issuer).Sent q.calls := by
  obtain ⟨state, sent⟩ := (Part.process_sent (t := t) laid rfl (h c)).of_ok runs
  have met : Meets (fun _ => True) (fun s' => AllOrderly (m.routes home issuer) s'.state)
      (s.dispatch t c) := by
    unfold dispatch
    rw [runs]
    show Meets _ _ (post c _ q.calls >>= _)
    rw [meets_bind]
    refine (post_sent laid q.calls (h.update state) sent).mono (fun mid placed => ?_) fun _ h => h
    split
    · exact placed
    · trivial
    · trivial
  exact ⟨met.of_ok step, sent⟩

end Calls

/-- A run with the core of each request, in order, and the calls that were made by components -/
inductive Logged (m : Machine C) [LinearOrder C] : System m → List C → List (Call C) → Prop
  | init : Logged m (init m) [] []
  | request {s s' : System m} {senders : List C} {log : List (Call C)} {core cache : C} {t : Nat}
      {lqe : Lqe C} :
      Logged m s senders log → m.part core = .core → (m.part cache).isL1 → s.queue.currTime ≤ t →
      lqe.path = [core] → lqe.type = .read ∨ lqe.type = .write → s.request cache t lqe = .ok s' →
      Logged m s' (senders ++ [core]) log
  | dispatch {s s' : System m} {senders : List C} {log : List (Call C)} {c : C} {t : Nat}
      {q : (m.part c).Result} : Logged m s senders log → s.next = some (t, c) →
      (m.part c).process t (s.state c) = .ok q → s.dispatch t c = .ok s' →
      Logged m s' senders (log ++ q.calls)

section Runs
variable [LinearOrder C] {s : System m} {senders : List C} {log : List (Call C)}

theorem request_issued {s' : System m} {cache : C} {t : Nat} {lqe : Lqe C}
    (step : s.request cache t lqe = .ok s') : s'.issued = s.issued + 1 := by
  have met : Meets (fun _ => True) (fun s' => s'.issued = s.issued + 1)
    (s.request cache t lqe) := by
    unfold request
    exact Meets.after fun _ => rfl
  exact met.of_ok step

theorem dispatch_issued {s' : System m} {c : C} {t : Nat} (step : s.dispatch t c = .ok s') :
    s'.issued = s.issued := by
  have met : Meets (fun _ => True) (fun s' => s'.issued = s.issued) (s.dispatch t c) := by
    unfold dispatch
    refine Meets.after fun q => Meets.after fun mid => ?_
    split
    · rfl
    · trivial
    · trivial
  exact met.of_ok step

theorem Logged.issued (run : Logged m s senders log) : s.issued = senders.length := by
  induction run with
  | init => rfl
  | request run hcore hcache time path type step ih =>
    rw [request_issued step, ih, List.length_append]; rfl
  | dispatch run next runs step ih => rw [dispatch_issued step, ih]

theorem Logged.run (run : Logged m s senders log) : Run m (fun _ _ _ => True) s := by
  induction run with
  | init => exact .init
  | request run hcore hcache time path type step ih =>
    exact ih.request hcore hcache time path type step
  | dispatch run next runs step ih => exact ih.dispatch next trivial step

theorem Run.logged {ok : Nat → C → System m → Prop} (run : Run m ok s) :
    ∃ senders log, Logged m s senders log := by
  induction run with
  | init => exact ⟨[], [], .init⟩
  | request run hcore hcache time path type step ih =>
    obtain ⟨senders, log, logged⟩ := ih
    exact ⟨_, log, logged.request hcore hcache time path type step⟩
  | @dispatch s s' c t run next ok step ih =>
    obtain ⟨senders, log, logged⟩ := ih
    cases runs : (m.part c).process t (s.state c) with
    | error a =>
      unfold System.dispatch at step
      rw [runs] at step
      cases step
    | ok q => exact ⟨senders, _, logged.dispatch next runs step⟩

theorem Logged.orderly (laid : (m.routes home issuer).Laid) (run : Logged m s senders log)
    (known : ∀ n core, senders[n]? = some core → issuer n = some core) :
    AllOrderly (m.routes home issuer) s.state ∧ (m.routes home issuer).Sent log := by
  induction run with
  | init => exact ⟨fun c => Part.orderly_init c (m.part c), .nil⟩
  | @request s s' senders log core cache t lqe run hcore hcache time path type step ih =>
    obtain ⟨orderly, sent⟩ := ih fun n core h => known n core
      ((List.getElem?_append_left (List.getElem?_eq_some_iff.mp h).1).trans h)
    refine ⟨request_orderly laid orderly hcore hcache path type (known _ _ ?_) step, sent⟩
    rw [run.issued]
    exact List.getElem?_concat_length
  | dispatch run next runs step ih =>
    obtain ⟨orderly, sent⟩ := ih known
    obtain ⟨orderly', calls⟩ := dispatch_orderly laid orderly runs step
    exact ⟨orderly', sent.append calls⟩

theorem messages_fit (laid : m.Laid home) (run : Logged m s senders log) :
    AllOrderly (m.routes home fun n => senders[n]?) s.state ∧
      (m.routes home fun n => senders[n]?).Sent log :=
  run.orderly (laid.routes _) fun _ _ h => h

/-- A core is only called with the answer to a request of its own, and there is nothing but the core
on the stack. -/
theorem answers_return (laid : m.Laid home) (run : Logged m s senders log) :
    ∀ call ∈ log, m.part call.callee = .core →
      call.lqe.type ∈ [EventType.read, .write, .nack, .rdBypass] ∧ call.lqe.path = [call.callee] ∧
        ∃ n, call.lqe.serial = some n ∧ senders[n]? = some call.callee := by
  intro call mem hcore
  have fits := (messages_fit laid run).2 call mem
  obtain ⟨type, n, serial, sender, path⟩ := (fits_iff hcore).mp fits
  exact ⟨type, path, n, serial, sender⟩

end Runs

section Play
variable [LinearOrder C]

def play : Nat → System m → List (Call C) → Except Abort (System m × List (Call C))
  | 0, s, log => return (s, log)
  | n + 1, s, log =>
    match s.next with
    | none => .error .fatal
    | some (t, c) => do
      let q ← (m.part c).process t (s.state c)
      let s' ← s.dispatch t c
      play n s' (log ++ q.calls)

theorem Logged.play {senders : List C} (n : Nat) {s : System m} {log : List (Call C)}
    (run : Logged m s senders log) :
    Meets (fun _ => True) (fun p => Logged m p.1 senders p.2) (s.play n log) := by
  induction n generalizing s log with
  | zero => exact run
  | succ n ih =>
    unfold System.play
    split
    · trivial
    · rename_i t c next
      cases runs : (m.part c).process t (s.state c) with
      | error a => trivial
      | ok q =>
        show Meets _ _ (s.dispatch t c >>= _)
        cases step : s.dispatch t c with
        | error a => trivial
        | ok s' => exact ih (run.dispatch next runs step)

end Play

theorem twoL1s_laid {numWays dirToL2T : Nat} : (twoL1s numWays dirToL2T).Laid fun _ => 5 where
  home _ := ⟨_, rfl⟩
  cachel1 c cfg n hp := by
    match c with
    | 2 | 3 => cases hp; exact ⟨rfl, _, _, rfl⟩
    | 0 | 1 | 4 | 5 | 6 | 7 => cases hp
  cachel2 c cfg n hp := by
    match c with
    | 4 => cases hp; exact ⟨rfl, ⟨_, rfl⟩, ⟨_, rfl⟩, fun _ _ => rfl⟩
    | 0 | 1 | 2 | 3 | 5 | 6 | 7 => cases hp
  directory c cfg hp := by
    match c with
    | 5 =>
      cases hp
      refine ⟨rfl, ⟨_, _, rfl⟩, fun l2 mem => ?_, ⟨_, rfl⟩, _, rfl, rfl⟩
      rw [List.mem_singleton.mp mem]
      exact ⟨_, _, rfl⟩
    | 0 | 1 | 2 | 3 | 4 | 6 | 7 => cases hp
  crossbar c cfg hp := by
    match c with
    | 7 => cases hp; exact fun _ => rfl
    | 0 | 1 | 2 | 3 | 4 | 5 | 6 => cases hp
  memoryController c cfg hp := by
    match c with
    | 6 => cases hp; exact ⟨_, rfl⟩
    | 0 | 1 | 2 | 3 | 4 | 5 | 7 => cases hp

def playReads (n : Nat) : Except Abort (System (twoL1s 1 1) × List (Call (Fin 8))) := do
  let s : System (twoL1s 1 1) ← bothRead 1 1
  s.play n []

theorem bothRead_logged {numWays dirToL2T : Nat} {s : System (twoL1s numWays dirToL2T)}
    (both : bothRead numWays dirToL2T = .ok s) : Logged (twoL1s numWays dirToL2T) s [0, 1] [] := by
  unfold bothRead at both
  cases hs : (init (twoL1s numWays dirToL2T)).request 2 0 (readLine 0) with
  | error a => rw [hs] at both; cases both
  | ok first =>
    rw [hs] at both
    have one : Logged (twoL1s numWays dirToL2T) first [0] [] :=
      Logged.init.request (twoL1s_core 0 (.inl rfl)) rfl (Nat.le_refl 0) rfl (.inl rfl) hs
    have second : first.request 3 first.queue.currTime (readLine 1) = .ok s := both
    exact one.request (twoL1s_core 1 (.inr rfl)) rfl le_rfl rfl (.inl rfl) second

theorem playReads_logged {n : Nat} {p : System (twoL1s 1 1) × List (Call (Fin 8))}
    (h : playReads n = .ok p) : Logged (twoL1s 1 1) p.1 [0, 1] p.2 := by
  unfold playReads at h
  cases both : bothRead 1 1 with
  | error a => rw [both] at h; cases h
  | ok s =>
    rw [both] at h
    have follows : s.play n [] = .ok p := h
    have logged := Logged.play n (bothRead_logged both)
    rw [follows] at logged
    exact logged

theorem playReads_calls : ∃ p, playReads 11 = .ok p ∧
    (p.2.map fun call => (call.callee, call.lqe.type)).filter (·.1 < 2) =
    [(1, .nack), (0, .read)] :=
  Meets.result (by decide +kernel)

/-- One core gets its line, the other a nack. -/
theorem answers_return_of_reads : ∃ (s : System (twoL1s 1 1)) (log : List (Call (Fin 8))),
    Logged (twoL1s 1 1) s [0, 1] log ∧
    (log.map fun call => (call.callee, call.lqe.type)).filter (·.1 < 2) = [(1, .nack), (0, .read)] ∧
    ∀ call ∈ log, (twoL1s 1 1).part call.callee = .core →
      call.lqe.type ∈ [EventType.read, .write, .nack, .rdBypass] ∧ call.lqe.path = [call.callee] ∧
        ∃ n, call.lqe.serial = some n ∧ [(0 : Fin 8), 1][n]? = some call.callee := by
  obtain ⟨p, hp, calls⟩ := playReads_calls
  have logged := playReads_logged hp
  exact ⟨p.1, p.2, logged, calls, answers_return twoL1s_laid logged⟩

end System
end McSim
