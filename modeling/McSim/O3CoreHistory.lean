import McSim.O3CoreRings

/-! What becomes of the entries of a reorder buffer.
They join at the back and leave at the front once they are done; none is lost, moved or replaced,
and an answer to an access reaches only the entry that sent it. -/

namespace McSim.O3Core

variable {cfg : O3CoreConfig} {s s' s₁ s₂ s₃ : O3Core} {t : Nat}

/-- No entry is lost, moved or replaced. -/
def Persists (s s' : O3Core) : Prop := s.history.map O3Rob.fixed <+: s'.history.map O3Rob.fixed

theorem Touched.persists (h : Touched s s') : Persists s s' := by
  unfold Persists
  rw [h.history]

theorem Persists.trans (h : Persists s₁ s₂) (h' : Persists s₂ s₃) : Persists s₁ s₃ :=
  List.IsPrefix.trans h h'

/-- Through a phase the core stays consistent, no entry is lost, and none leaves. -/
structure Stays (cfg : O3CoreConfig) (s s' : O3Core) : Prop where
  consistent : Consistent cfg s'
  persists : Persists s s'
  committed : s'.committed = s.committed

theorem Stays.refl (h : Consistent cfg s) : Stays cfg s s := ⟨h, List.prefix_rfl, rfl⟩

theorem Stays.trans (h : Stays cfg s₁ s₂) (h' : Stays cfg s₂ s₃) : Stays cfg s₁ s₃ :=
  ⟨h'.consistent, h.persists.trans h'.persists, h'.committed.trans h.committed⟩

theorem Stays.touched (h : Stays cfg s s₁) (ht : Touched s₁ s₂) (hc : Consistent cfg s₂) :
    Stays cfg s s₂ := h.trans ⟨hc, ht.persists, ht.committed⟩

theorem fetch_stays (h : Consistent cfg s) : Stays cfg s (fetch cfg t s) := by
  have fetched : Fetched cfg s (fetch cfg t s) := (fetch_fetched h.rings.queueSize).1
  have rob : (fetch cfg t s).o3rob = s.o3rob := fetched.same O3Core.o3rob fun _ _ _ => rfl
  have committed : (fetch cfg t s).committed = s.committed :=
    fetched.same O3Core.committed fun _ _ _ => rfl
  refine ⟨fetched.consistent h, ?_, committed⟩
  unfold Persists history
  rw [rob, committed]

theorem issue_stays (h : Consistent cfg s) : Stays cfg s (issue cfg t s) ∧
    ∃ new, (issue cfg t s).o3rob.toList = s.o3rob.toList ++ new ∧ ∀ e ∈ new, e.state = .issued := by
  refine issueLoop_keeps (P := fun s₁ => Stays cfg s s₁ ∧
    ∃ new, s₁.o3rob.toList = s.o3rob.toList ++ new ∧ ∀ e ∈ new, e.state = .issued)
    (fun s₁ hp hq room _ _ => ?_) _ ⟨Stays.refl h, [], by rw [List.append_nil], by simp⟩
  obtain ⟨stays, old, list, issued⟩ := hp
  have hr := stays.consistent.rings
  have room' : s₁.o3rob.size + 3 < s₁.o3rob.cap := by
    rw [hr.robCap]
    omega
  obtain ⟨new, he, hnew⟩ := issueInstr_enters cfg t (s₁.o3queue.slots s₁.o3queue.head).instr room'
  refine ⟨stays.trans ⟨issueInstr_consistent stays.consistent hq room, ?_, he.committed⟩,
    old ++ new, ?_, fun e hmem => ?_⟩
  · unfold Persists
    rw [he.history, List.map_append]
    exact List.prefix_append _ _
  · rw [he.list, list, List.append_assoc]
  · rcases List.mem_append.mp hmem with hmem | hmem
    · exact issued e hmem
    · obtain ⟨k, memDep, instrDep, rfl⟩ := hnew e hmem
      rfl

theorem execute_stays (h : Consistent cfg s) : Stays cfg s (execute cfg t s) := by
  have written : ∀ s₁ i e, Consistent cfg s₁ → i < s₁.o3rob.size →
      e.fixed = (s₁.o3rob.get i).fixed → Touched s₁ (s₁.writeRob (s₁.o3rob.slot i) e) :=
    fun s₁ i e hc hi he => writeRob_touched hc.rings.robSize.le hi he
  refine execute_keeps (P := Stays cfg s) (fun s₁ hp => ?_) (fun s₁ i m r hp hi _ _ => ?_)
    (fun s₁ i hp hi _ => ?_) (Stays.refl h)
  · exact hp.touched
      ⟨⟨rfl, rfl, rfl⟩, fun _ _ => rfl, rfl, rfl, rfl, fun _ _ => rfl, rfl, rfl, rfl⟩
      (retry_consistent hp.consistent)
  · refine hp.touched ?_ (complete_consistent hp.consistent hi m r)
    exact { written s₁ i { s₁.o3rob.get i with state := .completed, readyTime := r }
      hp.consistent hi.lt rfl with }
  · refine hp.touched ?_ (access_consistent hp.consistent hi)
    have executing := written s₁ i { s₁.o3rob.get i with state := .executing }
      hp.consistent hi.lt rfl
    unfold access
    dsimp only
    split
    · exact { executing with }
    · exact { executing with }

theorem wake_stays (h : Consistent cfg s) : Stays cfg s (wake cfg t s) := by
  refine (wake_keeps (P := Stays cfg s) (fun s₁ hp => ?_) (fun s₁ i j hp _ hj hs _ issued => ?_)
    h.rings.robSize.le (Stays.refl h)).1
  · exact hp.touched
      ⟨⟨rfl, rfl, rfl⟩, fun _ _ => rfl, rfl, rfl, rfl, fun _ _ => rfl, rfl, rfl, rfl⟩
      (retry_consistent hp.consistent)
  · have ho : (s₁.o3rob.get j).state ≠ .executing := fun hx => by
      rw [issued] at hx
      cases hx
    exact hp.touched (writeRob_touched hs hj rfl)
      (writeRob_consistent hp.consistent hj rfl ho ho)

/-- Some of the oldest entries leave, all of them done. -/
structure Leaves (cfg : O3CoreConfig) (t n : Nat) (s s' : O3Core) : Prop where
  consistent : Consistent cfg s'
  history : s'.history = s.history
  left : ∃ new, s'.committed = s.committed ++ new ∧ new.length ≤ n ∧ ∀ e ∈ new, e.done t = true

theorem commitLoop_leaves (n : Nat) (h : Consistent cfg s) :
    Leaves cfg t n s (commitLoop t n s) := by
  induction n generalizing s with
  | zero => exact ⟨h, rfl, [], by rw [List.append_nil]; rfl, le_rfl, by simp⟩
  | succ n ih =>
    unfold commitLoop
    split
    · rename_i some
      split
      · rename_i done
        have one := ih (commitOne_consistent h some done)
        obtain ⟨new, hc, few, all⟩ := one.left
        refine ⟨one.consistent, one.history.trans (commitOne_history h.rings some),
          s.o3rob.slots s.o3rob.head :: new, ?_, Nat.succ_le_succ few, ?_⟩
        · rw [hc]
          exact List.append_assoc _ [_] new
        · intro e he
          rcases List.mem_cons.mp he with rfl | he
          · exact done
          · exact all e he
      · have none := ih h
        obtain ⟨new, hc, few, all⟩ := none.left
        exact ⟨none.consistent, none.history, new, hc, few.trans (Nat.le_succ n), all⟩
    · exact ⟨h, rfl, [], by rw [List.append_nil], Nat.zero_le _, by simp⟩

theorem commit_leaves (h : Consistent cfg s) :
    Leaves cfg t cfg.maxCommitWidth s (commit cfg t s) := by
  have loop := commitLoop_leaves (t := t) cfg.maxCommitWidth h
  unfold commit
  dsimp only
  split
  · exact ⟨retry_consistent loop.consistent, loop.history, loop.left⟩
  · exact loop

structure Sound (cfg : O3CoreConfig) (s : O3Core) (e : CoreEvent) (s' : O3Core) : Prop where
  persists : Persists s s'
  commits : match e with
    | .processEvent t => ∃ new, s'.committed = s.committed ++ new ∧
        new.length ≤ cfg.maxCommitWidth ∧ ∀ e ∈ new, e.done t = true
    | _ => s'.committed = s.committed
  changes : match e with
    | .processEvent _ => True
    | .answer n _ _ => ∀ call, s.outstanding[n]? = some call →
        if isAccess call then Reaches call s s' else s'.o3rob = s.o3rob
    | _ => s'.o3rob = s.o3rob

theorem skip_stays (h : Consistent cfg s) : Stays cfg s (skip cfg t s) := by
  have consistent := skip_consistent (t := t) h
  refine ⟨consistent, ?_, skip_committed⟩
  unfold Persists history
  rw [skip_rob, skip_committed]

theorem processEvent_sound (h : Consistent cfg s) : Persists s (processEvent cfg s t).1 ∧
    ∃ new, (processEvent cfg s t).1.committed = s.committed ++ new ∧
      new.length ≤ cfg.maxCommitWidth ∧ ∀ e ∈ new, e.done t = true := by
  have skipped := skip_stays (t := t) h
  unfold processEvent
  dsimp only
  split
  · exact ⟨skipped.persists, [], by rw [List.append_nil]; exact skipped.committed,
      Nat.zero_le _, by simp⟩
  · have fetched := fetch_stays (t := t) skipped.consistent
    have issued := (issue_stays (t := t) fetched.consistent).1
    have executed := execute_stays (t := t) issued.consistent
    have woken := wake_stays (t := t) executed.consistent
    have stays := (((skipped.trans fetched).trans issued).trans executed).trans woken
    have leaves := commit_leaves (t := t) stays.consistent
    obtain ⟨new, hc, few, all⟩ := leaves.left
    unfold phases
    refine ⟨stays.persists.trans ?_, new, by rw [hc, stays.committed], few, all⟩
    unfold Persists
    rw [leaves.history]

theorem Reaches.persists {call : Call CorePort} (h : Reaches call s s') : Persists s s' := by
  unfold Persists history
  obtain ⟨i, hi, -, -, -, same | ⟨r, list⟩⟩ := h.entry
  · rw [h.committed, same]
  · have kept : (s.o3rob.toList.set i { s.o3rob.get i with
        state := .completed, readyTime := r }).map O3Rob.fixed =
          s.o3rob.toList.map O3Rob.fixed := by
      rw [List.map_set]
      refine List.ext_getElem? fun j => ?_
      rw [List.getElem?_set]
      split
      · rename_i hij
        subst hij
        rw [List.length_map, RingBuffer.toList_length, if_pos hi, List.getElem?_map,
          RingBuffer.toList_getElem?, if_pos hi]
        rfl
      · rfl
    rw [h.committed, list, List.map_append, List.map_append, kept]

theorem step_sound (h : Consistent cfg s) {e : CoreEvent} (hs : step cfg s e = .ok s') :
    Sound cfg s e s' := by
  have unchanged : ∀ s₁ : O3Core, s₁.o3rob = s.o3rob → s₁.committed = s.committed →
      Persists s s₁ := by
    intro s₁ rob committed
    unfold Persists history
    rw [rob, committed]
  cases e with
  | addInstruction x =>
    cases hs
    have same : (addInstruction cfg s x).1.o3rob = s.o3rob ∧
        (addInstruction cfg s x).1.committed = s.committed := by
      unfold addInstruction wakeUp
      dsimp only
      split <;> split <;> exact ⟨rfl, rfl⟩
    exact ⟨unchanged _ same.1 same.2, same.2, same.1⟩
  | setActive isActive =>
    cases hs
    exact ⟨unchanged _ rfl rfl, rfl, rfl⟩
  | processEvent t =>
    cases hs
    have taken : Consistent cfg (s.take t) :=
      h.of_same rfl rfl rfl rfl rfl rfl
    obtain ⟨persists, commits⟩ := processEvent_sound (t := t) taken
    exact ⟨persists, commits, trivial⟩
  | answer n type time =>
    obtain ⟨-, committed, reaches⟩ := answer_consistent h hs
    refine ⟨?_, committed, reaches⟩
    obtain ⟨call, hcall, -⟩ := answer_cases hs
    have one := reaches call hcall
    split at one
    · exact one.persists
    · exact unchanged _ one committed
  | migrate isMigrateReady =>
    cases hs
    exact ⟨unchanged _ rfl rfl, rfl, rfl⟩
  | advance t =>
    cases hs
    exact ⟨unchanged _ rfl rfl, rfl, rfl⟩

/-- Both rings, in every state that any order of calls leads to. -/
theorem run_rings (h : Run cfg s) :
    s.o3rob.size ≤ cfg.o3robMaxSize - 1 ∧
    (∀ t, ∃ new, (issue cfg t (fetch cfg t (skip cfg t s))).o3rob.toList = s.o3rob.toList ++ new) ∧
    s.received.Sublist s.accepted ∧ (cfg.skipAllInstrs = false → s.received = s.accepted) ∧
    s.history.map tag = tags s.entered ∧
    (∀ x, (parts x).length = max 1 ([x.raddr, x.raddr2, x.waddr].filter (· ≠ 0)).length) ∧
    ∀ e s', step cfg s e = .ok s' → Sound cfg s e s' := by
  have consistent := run_consistent h
  have hr := consistent.rings
  refine ⟨?_, fun t => ?_, hr.inOrder, hr.complete, hr.tags, parts_length, fun e s' hs =>
    step_sound consistent hs⟩
  · have := hr.robSize
    rw [hr.robCap] at this
    omega
  · have skipped := skip_consistent (t := t) consistent
    have fetched := fetch_stays (t := t) skipped
    obtain ⟨new, list, -⟩ := (issue_stays (t := t) fetched.consistent).2
    refine ⟨new, list.trans ?_⟩
    have load : Fetched cfg (skip cfg t s) (fetch cfg t (skip cfg t s)) :=
      (fetch_fetched skipped.rings.queueSize).1
    have rob := load.same O3Core.o3rob fun _ _ _ => rfl
    rw [rob, skip_rob]

/-- Seven instructions, of which the first has three accesses, go around both rings. -/
theorem run_rings_around : ∃ s, Run { o3queueParam := 2, o3robMaxSize := 5 } s ∧
    s.committed.length = 8 ∧ s.o3rob.head = 3 ∧ s.o3rob.size = 1 ∧ s.o3queue.head = 1 ∧
    s.received = s.accepted ∧ s.history.map tag = tags s.entered ∧
    Sound { o3queueParam := 2, o3robMaxSize := 5 } s (.processEvent 1200)
      (dispatch { o3queueParam := 2, o3robMaxSize := 5 } s 1200).1 := by
  let cfg : O3CoreConfig := { o3queueParam := 2, o3robMaxSize := 5 }
  let three : Pthread.PtsInstr :=
    { hthreadid := 0, currTime := 0, ip := 64, raddr := 64, raddr2 := 128, waddr := 192 }
  let plain : Pthread.PtsInstr := { hthreadid := 0, currTime := 0, ip := 68 }
  let calls : List CoreEvent :=
    [.addInstruction three, .addInstruction plain, .addInstruction plain,
    .addInstruction plain, .addInstruction plain, .addInstruction plain, .processEvent 0,
    .answer 0 .tlbRd 1, .answer 0 .read 20, .processEvent 80, .processEvent 160,
    .answer 0 .read 161,
    .processEvent 240, .addInstruction { plain with currTime := 240 }, .processEvent 320,
    .answer 1 .read 321, .answer 0 .read 321, .processEvent 400, .processEvent 480,
    .answer 0 .read 481, .processEvent 560, .processEvent 640, .processEvent 720, .processEvent 800,
    .processEvent 880, .processEvent 960, .processEvent 1040, .processEvent 1120]
  let s := (follow cfg (fun _ _ => True) (init cfg) calls).getD (init cfg)
  have run : Run cfg s := (TimelyRun.init.last calls (by decide +kernel)).run
  have places : s.committed.length = 8 ∧ s.o3rob.head = 3 ∧ s.o3rob.size = 1 ∧
    s.o3queue.head = 1 := by
    decide +kernel
  obtain ⟨-, -, -, complete, order, -, sound⟩ := run_rings run
  exact ⟨s, run, places.1, places.2.1, places.2.2.1, places.2.2.2, complete rfl, order,
    sound _ _ rfl⟩

end McSim.O3Core
