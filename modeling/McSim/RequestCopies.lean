import McSim.ReturnPath

/-! How many copies of a request there are.
An element that carries the serial number of a request stands for it, in a component as in a call.
None is made twice, and none is left once the core has its answer. -/

namespace McSim

open Contract Weighing Routes

variable {C : Type}

/-- Whatever is on its stack, an element with the serial number is one copy. -/
def Weight.copies (n : Nat) : Weight C where
  of _ serial := if serial = some n then 1 else 0
  empty := rfl
  tail_le _ _ := Nat.le_refl _

theorem Weight.copies_fee (n : Nat) (c : C) (paid : Finset (Option Nat)) :
    Fee (.copies n) c 0 paid where
  push _ _ := Nat.le_refl _
  free _ _ _ := Nat.le_refl _
  back _ _ _ _ := Nat.le_refl _

theorem Weight.copies_priced (n : Nat) (c : C) (p : Part C) (paid : Finset (Option Nat)) :
    p.Priced (.copies n) c 0 paid where
  cost := copies_fee n c paid
  still _ := rfl
  fresh _ := rfl
  top _ _ _ _ := Nat.le_refl _

namespace CacheL1

variable {w : Weight C} {part : C → Part C} {cfg : L1Config C} {t : Nat} {lqe : Lqe C}
    {s : CacheL1 C}

theorem processReply_once (w : Weight C) (part : C → Part C) :
    Meets (fun _ => True) (Replied w part 0 (w.load lqe) s) (processReply cfg t s lqe) := by
  refine processReply_replied w part 0 fun nack _ => ?_
  rw [w.load_stack lqe (congrArg cargo nack)]
  exact w.tail_le lqe.path lqe.serial

theorem processEvent_once {paid : Finset (Option Nat)} (part : C → Part C)
    (hf : Fee w cfg.self 0 paid) (fresh : w.of [cfg.self] none = 0)
    (hu : (s.takeEvents cfg t).repQ = [] → ∀ serial ∈ upgrades cfg t
      { s.takeEvents cfg t with reqQs := fun bank => ((s.takeEvents cfg t).reqQs bank).tail }
      ((s.takeEvents cfg t).frontRequests cfg), serial ∈ paid) :
    Meets (fun _ => True) (fun r => Stepped w part cfg 0 s r.1 r.2.1.calls)
      (processEvent cfg t s) := by
  unfold processEvent
  rw [meets_bind]
  refine (serve_stepped_of part hf fresh (fun lqe _ s' => processReply_once w part) hu).mono
    (fun r h => ⟨?_, fun lqe mem => ?_⟩) fun _ h => h
  · obtain ⟨n, weighs, pays⟩ := h.pays
    exact ⟨n, weighs.trans (inL1_takeEvents cfg t s), pays⟩
  · exact mem_replies_takeEvents.mp (h.replies lqe mem)

end CacheL1

namespace Part

variable [LinearOrder C] {part : C → Part C} {c : C} {t : Nat}

theorem process_once (n : Nat) {p : Part C} {s : p.State} (wired : p.Wired part c)
    (sound : p.Sound c s) :
    Meets (fun _ => True) (Steps (.copies n) part c 0 p s) (p.process t s) := by
  have priced := Weight.copies_priced n c p (∅ ∪ (p.upgrades t s).toFinset)
  cases p with
  | cachel1 cfg ways =>
    have self : cfg.self = c := wired
    subst self
    show Meets _ _ (CacheL1.processEvent cfg t s >>= _)
    rw [meets_bind]
    refine (CacheL1.processEvent_once part priced.cost (priced.fresh rfl)
      fun hq serial mem => ?_).mono
      (fun r step => ?_) fun _ h => h
    · refine Finset.mem_union_right _ (List.mem_toFinset.mpr ?_)
      rw [upgrades_of_requests1 hq]
      exact mem
    · obtain ⟨k, inside, pays⟩ := step.pays
      exact Steps.of_pays ⟨k, fun _ => inside, pays⟩ fun lqe mem => sound lqe (step.replies lqe mem)
  | cachel2 cfg ways => exact process_steps wired priced sound fun lqe _ _ => Finset.notMem_empty _
  | core | directory | crossbar | memoryController => exact process_steps wired priced sound trivial

end Part

namespace System

variable {m : Machine C} {home : Nat → C} {issuer : Nat → Option C} {n : Nat}

def answers (m : Machine C) (n : Nat) (call : Call C) : Bool :=
  (m.part call.callee).isCore && call.lqe.serial = some n

theorem kept_add_answer {call : Call C} (fits : (m.routes home issuer).Fits call) :
    (Weight.copies n).kept m.part call + (if answers m n call then 1 else 0) ≤
      (Weight.copies n).charge m.part call := by
  unfold Weight.kept answers
  cases core : (m.part call.callee).isCore with
  | false => exact Nat.le_refl _
  | true =>
    have hcore : m.part call.callee = .core := by
      cases hp : m.part call.callee with
      | core => rfl
      | cachel1 | cachel2 | directory | crossbar | memoryController =>
        rw [hp] at core
        cases core
    obtain ⟨type, -⟩ := (fits_iff hcore).mp fits
    have stack : cargo call.lqe.type = .stack := by
      simp only [List.mem_cons, List.not_mem_nil, or_false] at type
      rcases type with type | type | type | type <;> rw [type] <;> rfl
    have copy : (Weight.copies n).charge m.part call = if call.lqe.serial = some n then 1
      else 0 := by
      unfold Weight.charge
      cases call.kind with
      | req =>
        rw [hcore]
        rfl
      | rep => exact Weight.load_stack _ _ stack
      | crq => exact Weight.load_stack _ { call.lqe with path := call.lqe.path.tail } stack
    rw [copy]
    simp

theorem kept_add_answers {calls : List (Call C)} (sent : (m.routes home issuer).Sent calls) :
    weigh ((Weight.copies n).kept m.part) calls + calls.countP (answers m n) ≤
      weigh ((Weight.copies n).charge m.part) calls := by
  induction calls with
  | nil => exact Nat.le_refl 0
  | cons call calls ih =>
    have first := kept_add_answer (n := n) (sent call List.mem_cons_self)
    have rest := ih fun c hc => sent c (List.mem_cons_of_mem call hc)
    rw [weigh_cons, weigh_cons, List.countP_cons]
    omega

section Runs
variable [LinearOrder C] {s s' : System m} {senders : List C} {log calls : List (Call C)}
    {c cache core : C}
  {t : Nat}

/-- The answers to a request and its copies in the machine are one at most, once it was sent. -/
structure Single (n : Nat) (s : System m) (log : List (Call C)) : Prop where
  few : ∀ parts lines, log.countP (answers m n) + carried (.copies n) parts lines s.state ≤
    if n < s.issued then 1 else 0
  sound : AllSound s.state

theorem single_init : Single n (init m) [] where
  few parts lines := by
    have empty : carried (.copies n) parts lines (init m).state = 0 :=
      Finset.sum_eq_zero fun c _ => Weight.inside_init lines (m.part c)
    rw [empty]
    exact Nat.zero_le _
  sound c := Part.sound_init c (m.part c)

theorem carried_posted {k : Nat} {mid mid' : Midway m} (placed : Placed (.copies n) k 0 mid mid')
    (parts : Finset C) (lines : Finset Nat) :
    ∃ parts', carried (.copies n) parts lines mid'.state ≤ carried (.copies n) parts' lines
      mid.state + k := by
  obtain ⟨near, less⟩ := placed.weighs
  refine ⟨parts ∪ near, ?_⟩
  have more : carried (.copies n) parts lines mid'.state ≤ carried (.copies n) (parts ∪ near) lines
    mid'.state :=
    carried_mono Finset.subset_union_left (Finset.Subset.refl lines) _
  exact more.trans (less (parts ∪ near) Finset.subset_union_right lines)

theorem Single.request (h : Single n s log) {lqe : Lqe C} (step : s.request cache t lqe = .ok s') :
    Single n s' log := by
  have met : Meets (fun _ => True) (Single n · log) (s.request cache t lqe) := by
    unfold System.request
    dsimp only
    rw [meets_bind]
    refine (post_placed (.copies n) _ h.sound fun call hc => ?_).mono (fun mid placed => ?_)
      fun _ h => h
    · rw [List.mem_singleton.mp hc]
      exact fun _ => trivial
    · refine ⟨fun parts lines => ?_, placed.sound⟩
      obtain ⟨parts', less⟩ := carried_posted placed parts lines
      have before := h.few parts' lines
      have one : weigh ((Weight.copies n).kept m.part)
          [{ callee := cache, kind := .req, time := t, lqe := { lqe with serial := some s.issued } }] ≤
          if s.issued = n then 1 else 0 := by
        rw [weigh_cons, weigh_nil, Nat.add_zero]
        refine ((Weight.kept_le_charge _ m.part _).trans (Weight.charge_req_le _ m.part rfl)).trans
          ?_
        simp [Weight.whole, Weight.copies]
      dsimp only at less ⊢
      split at before <;> split at one <;> split <;> omega
  exact met.of_ok step

theorem Single.dispatch (h : Single n s log) (sent : (m.routes home issuer).Sent calls)
    {q : (m.part c).Result} (hq : q.calls = calls) (runs : (m.part c).process t (s.state c) = .ok q)
    (step : s.dispatch t c = .ok s') : Single n s' (log ++ calls) := by
  have steps := (Part.process_once n (t := t) (m.wired c) (h.sound c)).of_ok runs
  have met : Meets (fun _ => True) (Single n · (log ++ calls)) (s.dispatch t c) := by
    unfold System.dispatch
    rw [runs]
    show Meets _ _ (post c _ q.calls >>= _)
    rw [meets_bind]
    refine (post_placed (.copies n) q.calls (h.sound.update steps.sound) steps.routed).mono
      (fun mid placed => ?_) fun _ h => h
    have single : ∀ parts lines, (log ++ calls).countP (answers m n) +
        carried (.copies n) parts lines mid.state ≤ if n < s.issued then 1 else 0 := by
      intro parts lines
      obtain ⟨parts', less⟩ := carried_posted placed parts lines
      obtain ⟨near, weighs⟩ := steps.weighs
      have before := h.few (insert c parts') (lines ∪ near)
      have spent := weighs (lines ∪ near) Finset.subset_union_right
      have change := carried_update (w := .copies n) (Finset.mem_insert_self c parts')
        (lines ∪ near)
        s.state q.state
      have more : carried (.copies n) parts' lines (Function.update s.state c q.state) ≤
          carried (.copies n) (insert c parts') (lines ∪ near)
            (Function.update s.state c q.state) :=
        carried_mono (Finset.subset_insert c parts') Finset.subset_union_left _
      have leaves := kept_add_answers (n := n) sent
      rw [List.countP_append]
      rw [hq] at spent less
      simp only [Nat.zero_mul, Nat.add_zero] at spent
      dsimp only at less
      omega
    split
    · exact ⟨single, placed.sound⟩
    · trivial
    · trivial
  exact met.of_ok step

theorem Logged.single (laid : m.Laid home) (run : Logged m s senders log) (n : Nat) :
    Single n s log := by
  induction run with
  | init => exact single_init
  | request run hcore hcache time path type step ih => exact ih.request step
  | @dispatch s s' senders log c t q run next runs step ih =>
    have sent := (messages_fit laid (run.dispatch next runs step)).2
    exact ih.dispatch (fun call mem => sent call (List.mem_append_right log mem)) rfl runs step

/-- A core has one answer to a request at most. While it waits for it there is one element for the
request in the machine at most, and none afterwards. -/
theorem request_once (laid : m.Laid home) (run : Logged m s senders log) (n : Nat)
    (parts : Finset C) (lines : Finset Nat) :
    log.countP (answers m n) + carried (.copies n) parts lines s.state ≤ 1 := by
  have few := (run.single laid n).few parts lines
  split at few <;> omega

end Runs

theorem playReads_answer : ∃ p, playReads 11 = .ok p ∧ p.2.countP (answers (twoL1s 1 1) 0) = 1 :=
  Meets.result (by decide +kernel)

/-- The first read has been answered, and nothing in the machine stands for it. -/
theorem request_once_of_reads : ∃ (s : System (twoL1s 1 1)) (log : List (Call (Fin 8))),
    Logged (twoL1s 1 1) s [0, 1] log ∧ log.countP (answers (twoL1s 1 1) 0) = 1 ∧
    ∀ parts lines, carried (.copies 0) parts lines s.state = 0 := by
  obtain ⟨p, hp, answer⟩ := playReads_answer
  have logged := playReads_logged hp
  refine ⟨p.1, p.2, logged, answer, fun parts lines => ?_⟩
  have once := request_once twoL1s_laid logged 0 parts lines
  omega

end System
end McSim
