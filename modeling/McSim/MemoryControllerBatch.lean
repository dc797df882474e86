import McSim.MemoryControllerTiming
import McSim.MemoryControllerCandidate
import McSim.Lib.BatchQueue

/-! The batches of the memory controller.
The batch is the front of the request list up to `curr_batch_last`: what is left of the requests
that were there when it was formed. -/

namespace McSim

open MemoryController Contract

variable {C : Type} {cfg : McConfig C} {t : Nat}

namespace MemoryController

variable {s s' : MemoryController C} {lqe : Lqe C} {k : Nat}

def ofThread (th : Nat) (l : List (Lqe C)) : Nat := l.countP fun lqe => lqe.thId = th

/-- Requests are counted for each thread, if that is asked for. -/
def Counted (cfg : McConfig C) (s : MemoryController C) : Prop :=
  ∀ th, s.numReqFromATh th = if cfg.parBs then (ofThread th s.reqL : Int) else 0

structure Batched (cfg : McConfig C) (s : MemoryController C) : Prop where
  off : cfg.parBs = false → s.currBatchLast = -1
  low : -1 ≤ s.currBatchLast
  inside : s.currBatchLast < s.reqL.length
  window : s.currBatchLast < cfg.reqWindowSz

theorem Counted.few (h : s.Counted cfg) : s.Few := fun lqe _ => by
  rw [h]
  split
  · exact Int.ofNat_le.mpr List.countP_le_length
  · exact Int.natCast_nonneg _

theorem foldl_count (new : List (Lqe C)) (num : Nat → Int) (th : Nat) :
    new.foldl (fun num lqe => Function.update num lqe.thId (num lqe.thId + 1)) num th =
      num th + ofThread th new := by
  induction new generalizing num with
  | nil => simp [ofThread]
  | cons lqe new ih =>
    rw [List.foldl_cons, ih, Function.update_apply]
    unfold ofThread
    rw [List.countP_cons]
    by_cases same : th = lqe.thId
    · subst same
      simp
      omega
    · simp [same, Ne.symm same]

theorem Counted.prepare (h : s.Counted cfg) (t : Nat) : (prepare cfg t s).Counted cfg := by
  intro th
  have before := h th
  unfold MemoryController.prepare preProcessing
  dsimp only
  cases par : cfg.parBs with
  | false =>
    rw [par] at before
    exact before
  | true =>
    rw [par, if_pos rfl] at before
    rw [if_pos rfl, if_pos rfl, foldl_count, before]
    unfold ofThread
    rw [List.countP_append, Int.natCast_add]

theorem Batched.prepare (h : s.Batched cfg) (t : Nat) : (prepare cfg t s).Batched cfg := by
  have low := h.low
  have inside := h.inside
  have window := h.window
  unfold MemoryController.prepare preProcessing
  dsimp only
  by_cases forms : cfg.parBs = true ∧ s.currBatchLast = -1 ∧
      s.reqL ++ (Multimap.front t s.reqEvent).map (·.2) ≠ []
  · have some := List.length_pos_of_ne_nil forms.2.2
    refine ⟨fun off => ?_, ?_, ?_, ?_⟩
    · rw [forms.1] at off
      cases off
    · dsimp only
      rw [if_pos forms]
      omega
    · dsimp only
      rw [if_pos forms]
      omega
    · dsimp only
      rw [if_pos forms]
      omega
  · refine ⟨fun off => ?_, ?_, ?_, ?_⟩
    · dsimp only
      rw [if_neg forms]
      exact h.off off
    · dsimp only
      rw [if_neg forms]
      exact low
    · dsimp only
      rw [if_neg forms, List.length_append]
      omega
    · dsimp only
      rw [if_neg forms]
      exact window

theorem ofThread_erase {l : List (Lqe C)} (get : l[k]? = some lqe) (th : Nat) :
    ofThread th l = ofThread th (l.eraseIdx k) + if lqe.thId = th then 1 else 0 := by
  obtain ⟨hlt, rfl⟩ := List.getElem?_eq_some_iff.mp get
  have left := (List.getElem_cons_eraseIdx_perm hlt).countP_eq fun lqe => lqe.thId = th
  rw [List.countP_cons] at left
  simpa [ofThread] using left.symm

theorem Accesses.reqL {i : Nat} {action : McBankAction} {effects : McEffects C}
    (h : Accesses cfg t s lqe i action s' effects) : s'.reqL = s.reqL.eraseIdx i := by
  obtain ⟨s₁, -, eq⟩ := h.bursts
  rw [eq]

theorem Counted.commands {effects : McEffects C} (h : s.Counted cfg) (get : s.reqL[k]? = some lqe)
    (commands : Commands cfg t s lqe k s' effects) : s'.Counted cfg := by
  cases commands with
  | activate can => exact h
  | precharge can => exact h
  | access ready accesses batch counts =>
    intro th
    have before := h th
    have left := ofThread_erase get th
    rw [counts, accesses.reqL]
    cases par : cfg.parBs with
    | false =>
      rw [par] at before
      exact before
    | true =>
      rw [par, if_pos rfl, left] at before
      rw [if_pos rfl, if_pos rfl, Function.update_apply]
      by_cases same : th = lqe.thId
      · subst same
        rw [if_pos rfl] at before ⊢
        omega
      · rw [if_neg (Ne.symm same)] at before
        rw [if_neg same]
        exact before

theorem Batched.commands {effects : McEffects C} (h : s.Batched cfg) (get : s.reqL[k]? = some lqe)
    (within : k < cfg.reqWindowSz) (commands : Commands cfg t s lqe k s' effects) :
    s'.Batched cfg := by
  cases commands with
  | activate can => exact ⟨h.off, h.low, h.inside, h.window⟩
  | precharge can => exact ⟨h.off, h.low, h.inside, h.window⟩
  | access ready accesses batch counts =>
    obtain ⟨hlt, -⟩ := List.getElem?_eq_some_iff.mp get
    have size := Nat.zero_lt_of_lt within
    have low := h.low
    have inside := h.inside
    have window := h.window
    have length : s'.reqL.length = s.reqL.length - 1 := by
      rw [accesses.reqL, List.length_eraseIdx_of_lt hlt]
    have shrinks : -1 ≤ batchAfter cfg s k ∧ batchAfter cfg s k < s'.reqL.length ∧
        batchAfter cfg s k < cfg.reqWindowSz := by
      unfold batchAfter
      cases par : cfg.parBs with
      | false =>
        have off := h.off par
        rw [if_pos rfl]
        omega
      | true =>
        rw [if_neg (by simp)]
        split
        · split <;> omega
        · split <;> omega
    rw [← batch] at shrinks
    refine ⟨fun par => ?_, shrinks.1, shrinks.2.1, shrinks.2.2⟩
    rw [batch, batchAfter, if_pos par]
    exact h.off par

/-- The requests and the batch, as a queue that is served in batches -/
structure Follows (s : MemoryController C) (log : List (Nat × McCommand × Lqe C))
    (q : BatchQueue (Lqe C)) : Prop where
  waiting : s.reqL = q.batch ++ q.rest
  last : s.currBatchLast = (q.batch.length : Int) - 1
  served : McSim.served log = q.served

variable {log : List (Nat × McCommand × Lqe C)} {q : BatchQueue (Lqe C)}

theorem Follows.prepare (par : cfg.parBs = true) (h : s.Follows log q) (t : Nat) :
    ∃ q', BatchQueue.Steps cfg.reqWindowSz q q' ∧ (prepare cfg t s).Follows log q' := by
  have last := h.last
  have arrives : BatchQueue.Step cfg.reqWindowSz q _ :=
    .arrive q ((Multimap.front t s.reqEvent).map (·.2))
  have more : s.reqL ++ (Multimap.front t s.reqEvent).map (·.2) =
      q.batch ++ (q.rest ++ (Multimap.front t s.reqEvent).map (·.2)) := by
    rw [h.waiting, List.append_assoc]
  by_cases forms : s.currBatchLast = -1 ∧ s.reqL ++ (Multimap.front t s.reqEvent).map (·.2) ≠ []
  · have empty : q.batch = [] := List.eq_nil_of_length_eq_zero (by omega)
    refine ⟨_, .tail (.single arrives) (.form _ empty), ?_, ?_, h.served⟩
    · rw [empty, List.nil_append] at more
      exact more.trans (List.take_append_drop _ _).symm
    · show (if _ then _ else _) = _
      rw [if_pos ⟨par, forms⟩, more, empty, List.nil_append, List.length_take]
      dsimp only
      omega
  · refine ⟨_, .single arrives, more, ?_, h.served⟩
    show (if _ then _ else _) = _
    rw [if_neg fun all => forms all.2]
    exact last

theorem served_snoc (log : List (Nat × McCommand × Lqe C)) (e : Nat × McCommand × Lqe C) :
    McSim.served (log ++ [e]) = McSim.served log ++ (servedBy e).toList := by
  unfold McSim.served
  rw [List.filterMap_append]
  cases h : servedBy e <;> simp [h]

theorem Follows.commands {effects : McEffects C} (par : cfg.parBs = true) (h : s.Follows log q)
    (get : s.reqL[k]? = some lqe) (commands : Commands cfg t s lqe k s' effects) :
    ∃ q', BatchQueue.Steps cfg.reqWindowSz q q' ∧
      s'.Follows (log ++ (effects.command.map fun c => (t, c)).toList) q' := by
  have waiting := h.waiting
  have last := h.last
  have row : ∀ (s' : MemoryController C) (command : McCommand), s'.reqL = s.reqL →
      s'.currBatchLast = s.currBatchLast → servedBy (t, command, lqe) = none →
      ∃ q', BatchQueue.Steps cfg.reqWindowSz q q' ∧ s'.Follows (log ++ [(t, command, lqe)]) q' := by
    intro s' command reqL batch row
    refine ⟨q, .refl, reqL.trans waiting, batch.trans last, ?_⟩
    rw [served_snoc, row]
    exact (List.append_nil _).trans h.served
  cases commands with
  | activate can => exact row (activateRow cfg t s lqe).1 _ rfl rfl rfl
  | precharge can => exact row (prechargeRow cfg t s lqe).1 _ rfl rfl rfl
  | access ready accesses batch counts =>
    have reqL : s'.reqL = (q.batch ++ q.rest).eraseIdx k := waiting ▸ accesses.reqL
    have served : McSim.served (log ++ (effects.command.map fun c => (t, c)).toList) =
        q.served ++ [lqe] := by
      rw [accesses.command]
      exact (served_snoc log _).trans (by rw [h.served]; rfl)
    rw [batchAfter, if_neg (by simp [par])] at batch
    rw [waiting] at get
    by_cases inside : k < q.batch.length
    · rw [List.getElem?_append_left inside] at get
      rw [List.eraseIdx_append_of_lt_length inside] at reqL
      have serves : BatchQueue.Step cfg.reqWindowSz q _ := .serve q get
      have fewer := List.length_eraseIdx_of_lt inside
      by_cases sole : q.batch.length = 1
      · -- the last member: the requests behind it are the next batch
        have empty : q.batch.eraseIdx k = [] := List.eq_nil_of_length_eq_zero (by omega)
        rw [if_pos (by omega), if_pos (by omega)] at batch
        refine ⟨_, .tail (.single serves) (.form _ empty), ?_, ?_, served⟩
        · rw [reqL, empty, List.nil_append]
          exact (List.take_append_drop _ _).symm
        · rw [batch, List.length_take]
          have all := congrArg List.length waiting
          rw [List.length_append] at all
          dsimp only
          omega
      · refine ⟨_, .single serves, reqL, ?_, served⟩
        rw [batch]
        dsimp only
        split
        · rw [if_neg (by omega)]
          omega
        · rw [if_pos (by omega)]
          omega
    · have outside := not_lt.mp inside
      rw [List.getElem?_append_right outside] at get
      rw [List.eraseIdx_append_of_length_le outside] at reqL
      refine ⟨_, .single (.serveRest q get), reqL, ?_, served⟩
      rw [batch, if_neg (by omega), if_neg (by omega)]
      exact last

end MemoryController

namespace McSystem

variable {s s' : McSystem C}

theorem addReqEvent_batch (cfg : McConfig C) (mc : MemoryController C) (time : Nat) (lqe : Lqe C) :
    (mc.addReqEvent cfg time lqe).1.reqL = mc.reqL ∧
      (mc.addReqEvent cfg time lqe).1.currBatchLast = mc.currBatchLast ∧
      (mc.addReqEvent cfg time lqe).1.numReqFromATh = mc.numReqFromATh := by
  unfold addReqEvent
  dsimp only
  split
  · split <;> exact ⟨rfl, rfl, rfl⟩
  · split
    · split <;> exact ⟨rfl, rfl, rfl⟩
    · exact ⟨rfl, rfl, rfl⟩

theorem step_processEvent (hs : step cfg s (.process t) = .ok s') : ∃ effects,
    s.mc.processEvent cfg t = .ok (s'.mc, effects) ∧
      s'.log = s.log ++ (effects.command.map fun c => (t, c)).toList := by
  unfold step at hs
  cases hp : s.mc.processEvent cfg t with
  | error e => simp [hp, bind, Except.bind] at hs
  | ok r =>
    obtain ⟨mc, effects⟩ := r
    simp only [hp, bind, Except.bind, pure, Except.pure, Except.ok.injEq] at hs
    subst hs
    exact ⟨effects, rfl, rfl⟩

theorem step_turns (counted : s.mc.Counted cfg) (batched : s.mc.Batched cfg)
    (hs : step cfg s (.process t) = .ok s') : ∃ effects, Turns cfg t s.mc s'.mc effects ∧
      s'.log = s.log ++ (effects.command.map fun c => (t, c)).toList := by
  obtain ⟨effects, hp, log⟩ := step_processEvent hs
  exact ⟨effects, processEvent_turns (counted.prepare t).few (batched.prepare t).window hp, log⟩

theorem batched_step (counted : s.mc.Counted cfg) (batched : s.mc.Batched cfg) (e : McEvent C)
    (hs : step cfg s e = .ok s') :
    s'.mc.Counted cfg ∧ s'.mc.Batched cfg := by
  cases e with
  | add time lqe =>
    obtain ⟨reqL, batch, counts⟩ := addReqEvent_batch cfg s.mc time lqe
    rw [step_add_eq hs]
    refine ⟨fun th => ?_, ⟨fun par => ?_, ?_, ?_, ?_⟩⟩
    · exact (congrFun counts th).trans ((counted th).trans (by rw [← reqL]; rfl))
    · exact batch.trans (batched.off par)
    · exact batched.low.trans_eq batch.symm
    · exact (batch.trans_lt batched.inside).trans_eq (by rw [← reqL]; rfl)
    · exact batch.trans_lt batched.window
  | advance t =>
    cases hs
    exact ⟨counted, batched⟩
  | process t =>
    obtain ⟨effects, turns, -⟩ := step_turns counted batched hs
    have counted := counted.prepare t
    have batched := batched.prepare t
    cases turns with
    | idle selects nothing state command =>
      rw [state]
      exact ⟨counted, batched.off, batched.low, batched.inside, batched.window⟩
    | @command c k lqe done selects found get commands command =>
      have counted : ((s.mc.prepare cfg t).afterScan c).Counted cfg := counted
      have batched : ((s.mc.prepare cfg t).afterScan c).Batched cfg :=
        ⟨batched.off, batched.low, batched.inside, batched.window⟩
      obtain ⟨_, -, within, -⟩ := selects.found k found
      exact ⟨counted.commands get commands, batched.commands get within commands⟩

theorem batched_run (run : Run cfg s) : s.mc.Counted cfg ∧ s.mc.Batched cfg := by
  induction run with
  | init =>
    refine ⟨fun th => ?_, ⟨fun _ => rfl, le_rfl, ?_, ?_⟩⟩
    · show (0 : Int) = _
      simp [init, ofThread]
    · simp [init]
    · simp only [init]
      omega
  | step e run timely hs ih => exact batched_step ih.1 ih.2 e hs

end McSystem
end McSim
