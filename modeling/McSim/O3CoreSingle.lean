import McSim.O3CoreSequence
import McSim.O3CoreProgress

/-! Cores that never stop with work left.
A reorder buffer of four entries holds one instruction at a time, whose parts are done one after the
other, so that no entry is left over at its head. -/

namespace McSim.O3Core

open Pthread (PtsInstr)

variable {cfg : O3CoreConfig} {s s' s₁ : O3Core} {t : Nat} {due : Nat → Prop}

/-- All entries are of one instruction. Those behind the oldest are issued, and that one, where it
is completed, has its tick to come or `due`. -/
structure Single (due : Nat → Prop) (s : O3Core) : Prop where
  serial : ∀ i < s.o3rob.size, ∀ j < s.o3rob.size,
    (s.o3rob.get i).serial = (s.o3rob.get j).serial
  issued : ∀ j < s.o3rob.size, 0 < j → (s.o3rob.get j).state = .issued
  access : ∀ j < s.o3rob.size, 0 < j → (s.o3rob.get j).memaddr ≠ 0
  head : 0 < s.o3rob.size → (s.o3rob.get 0).state = .completed →
    (s.o3rob.get 0).readyTime ∈ s.events ∨ due (s.o3rob.get 0).readyTime

theorem Single.of_same (h : Single due s) (rob : s'.o3rob = s.o3rob)
    (events : s.events ⊆ s'.events) : Single due s' := by
  refine ⟨?_, ?_, ?_, ?_⟩
  · rw [rob]
    exact h.serial
  · rw [rob]
    exact h.issued
  · rw [rob]
    exact h.access
  · rw [rob]
    exact fun hs hx => (h.head hs hx).imp_left fun hm => events hm

theorem Single.issueInstr (x : O3Instr) (empty : s.o3rob.size = 0) (cap : s.o3rob.cap = 4) :
    Single due (issueInstr cfg t x s) := by
  obtain ⟨new, he, hnew⟩ := issueInstr_enters (s := s) cfg t x (by omega)
  have mem : ∀ j < (O3Core.issueInstr cfg t x s).o3rob.size,
      (O3Core.issueInstr cfg t x s).o3rob.get j ∈ new := fun j hj => he.get_new hj (by omega)
  have size := he.size
  have tags := he.tags
  generalize O3Core.issueInstr cfg t x s = s' at *
  refine ⟨fun i hi j hj => ?_, fun j hj _ => ?_, fun j hj hpos => ?_, fun hs hx => ?_⟩
  · obtain ⟨k, m, d, eq⟩ := hnew _ (mem i hi)
    obtain ⟨k', m', d', eq'⟩ := hnew _ (mem j hj)
    rw [eq, eq']
    rfl
  · obtain ⟨k, m, d, eq⟩ := hnew _ (mem j hj)
    rw [eq]
    rfl
  · obtain ⟨k, m, d, eq⟩ := hnew _ (mem j hj)
    have part : tag (s'.o3rob.get j) ∈ (parts x).map fun k => (s.entered.length, k) := by
      rw [← tags]
      exact List.mem_map_of_mem (mem j hj)
    obtain ⟨k', hk', he'⟩ := List.mem_map.mp part
    rw [eq] at he' ⊢
    obtain rfl : k' = k := congrArg Prod.snd he'
    refine (addr_of_part hk').1 (Bool.eq_false_iff.mpr fun hm => ?_)
    have one : (parts x).length = 1 := by
      unfold parts
      rw [if_pos hm]
      rfl
    omega
  · obtain ⟨k, m, d, eq⟩ := hnew _ (mem 0 hs)
    rw [eq] at hx
    cases hx

theorem Single.issue (h : Single due s) (hc : Consistent cfg s) (four : cfg.o3robMaxSize = 4) :
    Single due (issue cfg t s) :=
  (issueLoop_keeps (P := fun s => Single due s ∧ Consistent cfg s) (fun s hp hq room _ _ =>
    ⟨Single.issueInstr _ (by omega) (hp.2.rings.robCap.trans four),
      issueInstr_consistent hp.2 hq room⟩) _ ⟨h, hc⟩).1

theorem issueClear_four (four : cfg.o3robMaxSize = 4) (n : Nat) (s : O3Core) :
    IssueClear cfg t n s := by
  induction n generalizing s with
  | zero => trivial
  | succ n ih =>
    refine fun room => ⟨fun _ _ hidden => ?_, ih _⟩
    obtain ⟨j, hj, -⟩ := hidden
    omega

theorem timely_clear {ok : O3Core → CoreEvent → Prop} (h : TimelyRun cfg ok s)
    (clear : ∀ s e, StepClear cfg s e) : TimelyRun cfg (StepClear cfg) s := by
  induction h with
  | init => exact .init
  | step e _ ht _ hs ih => exact .step e ih ht (clear _ e) hs

theorem commitLoop_one (hr : Rings cfg s) {n : Nat} (hn : 0 < n)
    (second : 1 < s.o3rob.size → (s.o3rob.get 1).done t = false) :
    (0 < s.o3rob.size → (s.o3rob.get 0).done t = false) ∧ commitLoop t n s = s ∨
      0 < s.o3rob.size ∧ commitLoop t n s = s.commitOne := by
  obtain ⟨n, rfl⟩ : ∃ m, n = m + 1 := ⟨n - 1, by omega⟩
  have zero := RingBuffer.slot_zero hr.robHead
  by_cases hs : 0 < s.o3rob.size
  · cases hd : (s.o3rob.slots s.o3rob.head).done t with
    | false =>
      refine .inl ⟨fun _ => ?_, commitLoop_stuck _ hd⟩
      rw [RingBuffer.get, zero]
      exact hd
    | true =>
      refine .inr ⟨hs, ?_⟩
      unfold commitLoop
      rw [if_pos hs, if_pos hd]
      by_cases more : 1 < s.o3rob.size
      · refine commitLoop_stuck n ?_
        have head : s.commitOne.o3rob.head = s.commitOne.o3rob.slot 0 :=
          (RingBuffer.slot_zero (Nat.mod_lt _ (Nat.zero_lt_of_lt hr.robHead))).symm
        rw [head]
        have := commitOne_get hr more
        rw [RingBuffer.get] at this
        rw [this]
        exact second more
      · have none : s.commitOne.o3rob.size = 0 := by
          show s.o3rob.size - 1 = 0
          omega
        cases n with
        | zero => rfl
        | succ n =>
          unfold commitLoop
          rw [none, if_neg (Nat.lt_irrefl 0)]
  · refine .inl ⟨fun h => absurd h hs, ?_⟩
    unfold commitLoop
    rw [if_neg hs]

/-- While entries execute: the second part may have started, when the first was done. -/
structure Moving (t : Nat) (s : O3Core) : Prop where
  serial : ∀ i < s.o3rob.size, ∀ j < s.o3rob.size,
    (s.o3rob.get i).serial = (s.o3rob.get j).serial
  access : ∀ j < s.o3rob.size, 0 < j → (s.o3rob.get j).memaddr ≠ 0
  second : 1 < s.o3rob.size → (s.o3rob.get 1).state = .issued ∨
    (s.o3rob.get 1).state = .executing ∧ (s.o3rob.get 0).done t = true
  later : ∀ j < s.o3rob.size, 1 < j → (s.o3rob.get j).state = .issued

theorem Stays.fixed (h : Stays cfg s s') (place : SamePlace s s') {j : Nat}
    (hj : j < s.o3rob.size) : (s'.o3rob.get j).fixed = (s.o3rob.get j).fixed := by
  have lt : s.committed.length + j < s.history.length := by
    unfold history
    rw [List.length_append, RingBuffer.toList_length]
    omega
  have same := h.persists.entry lt
  rw [entry_live hj, ← h.committed, entry_live (place.size.symm ▸ hj)] at same
  exact same

theorem Single.moving (h : Single due s) (ordered : Ordered t s) (hc : Consistent cfg s) :
    Moving t (wake cfg t (execute cfg t s)) := by
  have executed := execute_stays (t := t) hc
  have woken := wake_stays (t := t) executed.consistent
  have executing : SamePlace s (execute cfg t s) ∧ _ := execute_startable hc.rings.robSize.le
  obtain ⟨place, change⟩ := executing
  have lighter := (wake_lighter cfg t executed.consistent.rings.robSize.le).1
  have size : (wake cfg t (execute cfg t s)).o3rob.size = s.o3rob.size :=
    lighter.size.trans place.size
  have fixed : ∀ j < s.o3rob.size, _ := fun j hj =>
    fixed_same ((executed.trans woken).fixed (place.trans lighter.toSamePlace) hj)
  have state : ∀ j < s.o3rob.size, ((wake cfg t (execute cfg t s)).o3rob.get j).state =
      ((execute cfg t s).o3rob.get j).state := fun j hj => lighter.state j (place.size.symm ▸ hj)
  have before : ∀ i j, i < j → j < s.o3rob.size → Startable t j s →
      (s.o3rob.get i).done t = true := fun i j hij hj start =>
    ordered.startable start i ⟨hij, .inl (h.serial i (hij.trans hj) j hj)⟩
  refine ⟨fun i hi j hj => ?_, fun j hj hpos => ?_, fun hs => ?_, fun j hj hpos => ?_⟩
  · rw [size] at hi hj
    rw [(fixed i hi).1, (fixed j hj).1]
    exact h.serial i hi j hj
  · rw [size] at hj
    rw [(fixed j hj).2.1]
    exact h.access j hj hpos
  · rw [size] at hs
    have first : 0 < s.o3rob.size := Nat.zero_lt_of_lt hs
    rw [state 1 hs]
    rcases change 1 hs with same | ⟨start, no | no | executing⟩
    · rw [same]
      exact .inl (h.issued 1 hs Nat.one_pos)
    · cases no
    · exact absurd no (h.access 1 hs Nat.one_pos)
    · -- the oldest part was done before, and so has not changed
      have done := before 0 1 Nat.one_pos hs start
      have kept : (execute cfg t s).o3rob.get 0 = s.o3rob.get 0 := by
        refine (change 0 first).resolve_right fun ⟨start, _⟩ => ?_
        rw [not_issued_done start.issued] at done
        cases done
      refine .inr ⟨executing, ?_⟩
      rw [O3Rob.done_iff, state 0 first, lighter.readyTime 0 (place.size.symm ▸ first), kept]
      exact O3Rob.done_iff.mp done
  · rw [size] at hj
    rw [state j hj]
    rcases change j hj with same | ⟨start, -⟩
    · rw [same]
      exact h.issued j hj (Nat.zero_lt_of_lt hpos)
    · have done := before 1 j hpos hj start
      rw [not_issued_done (h.issued 1 (hpos.trans hj) Nat.one_pos)] at done
      cases done

theorem Moving.commit (h : Moving t s) (awake : Awake t s) (hc : Consistent cfg s)
    (w : 0 < cfg.maxCommitWidth) : Single (fun _ => False) (commit cfg t s) := by
  have hr := hc.rings
  have second : 1 < s.o3rob.size → (s.o3rob.get 1).done t = false := by
    intro hs
    rcases h.second hs with issued | ⟨executing, -⟩
    · exact not_issued_done issued
    · unfold O3Rob.done
      rw [executing]
      rfl
  have loop : Single (fun _ => False) (commitLoop t cfg.maxCommitWidth s) := by
    rcases commitLoop_one hr w second with ⟨wait, same⟩ | ⟨hs, one⟩
    · rw [same]
      refine ⟨h.serial, fun j hj hpos => ?_, h.access, fun hs hx => .inl ?_⟩
      · rcases Nat.eq_or_lt_of_le hpos with rfl | more
        · refine (h.second hj).resolve_right fun ⟨_, done⟩ => ?_
          rw [wait (Nat.zero_lt_of_lt hj)] at done
          cases done
        · exact h.later j hj more
      · refine (awake.completed 0 hs hx).resolve_right fun hle => ?_
        have not := wait hs
        rw [O3Rob.done_iff.mpr ⟨hx, hle⟩] at not
        cases not
    · rw [one]
      have get : ∀ {n}, n < s.commitOne.o3rob.size → n + 1 < s.o3rob.size ∧
          s.commitOne.o3rob.get n = s.o3rob.get (n + 1) := fun hn =>
        ⟨Nat.add_lt_of_lt_sub hn, commitOne_get hr (Nat.add_lt_of_lt_sub hn)⟩
      refine ⟨fun i hi j hj => ?_, fun j hj hpos => ?_, fun j hj _ => ?_, fun hs hx => ?_⟩
      · rw [(get hi).2, (get hj).2]
        exact h.serial _ (get hi).1 _ (get hj).1
      · rw [(get hj).2]
        exact h.later _ (get hj).1 (Nat.succ_lt_succ hpos)
      · rw [(get hj).2]
        exact h.access _ (get hj).1 (Nat.succ_pos j)
      · rw [(get hs).2] at hx
        rcases h.second (get hs).1 with issued | ⟨executing, -⟩
        · exact absurd (issued.symm.trans hx) (by decide)
        · exact absurd (executing.symm.trans hx) (by decide)
  unfold O3Core.commit
  dsimp only
  split
  · exact loop.of_same rfl (Finset.subset_insert _ _)
  · exact loop

theorem dispatch_single (h : Single (fun _ => False) s) (ordered : Ordered s.now s)
    (hc : Consistent cfg s) (named : Named (fun _ => False) s.now s) (pending : Pending cfg s.now s)
    (ht : s.Timely (.processEvent t)) (four : cfg.o3robMaxSize = 4) (w : 0 < cfg.maxCommitWidth) :
    Single (fun _ => False) (dispatch cfg s t).1 := by
  have now := named.ahead t ht.1
  have inCall := taken_inCall hc named pending ht
  have taken : Single (· = t) (skip cfg t (s.take t)) := by
    refine ⟨?_, ?_, ?_, ?_⟩
    · rw [skip_rob]
      exact h.serial
    · rw [skip_rob]
      exact h.issued
    · rw [skip_rob]
      exact h.access
    · rw [skip_rob, skip_events]
      intro hs hx
      have hm := (h.head hs hx).resolve_right id
      by_cases he : (s.o3rob.get 0).readyTime = t
      · exact .inr he
      · exact .inl (Finset.mem_erase.mpr ⟨he, hm⟩)
  have later : Ordered t (skip cfg t (s.take t)) :=
    (ordered.later now).of_same (skip_rob (s := s.take t)) skip_committed
  unfold dispatch processEvent
  dsimp only
  split
  · refine h.of_same (skip_rob (s := s.take t)) ?_
    have again : ((skip cfg t (s.take t)).addEvent t).events = s.events := by
      show insert t (skip cfg t (s.take t)).events = s.events
      rw [skip_events]
      exact Finset.insert_erase ht.1
    rw [again]
  · have loaded : Single (· = t) (fetch cfg t (skip cfg t (s.take t))) := by
      have fetched : Fetched cfg _ (fetch cfg t (skip cfg t (s.take t))) :=
        (fetch_fetched inCall.consistent.rings.queueSize).1
      refine taken.of_same (fetched.same O3Core.o3rob fun _ _ _ => rfl) ?_
      rw [fetched.same O3Core.events fun _ _ _ => rfl]
    have issued := loaded.issue (t := t) inCall.fetch.consistent four
    have first := (later.phases inCall.consistent (issueClear_four four _ _)).1
    have executed := inCall.fetch.issue.execute
    have awake := executed.named.wake cfg executed.consistent.rings.robSize.le
    exact (issued.moving first inCall.fetch.issue.consistent).commit awake
      (wake_consistent executed.consistent) w

theorem answer_single (h : Single (fun _ => False) s) (hc : Consistent cfg s) {n time : Nat}
    {type : EventType} (hs : answer cfg s n type time = .ok s') : Single (fun _ => False) s' := by
  obtain ⟨call, hcall, ⟨isf, hs⟩ | ⟨isa, hs⟩⟩ := answer_cases hs
  · rcases addReqEvent_cases hs with ⟨nacks, delay, rfl⟩ | rfl
    · exact h.of_same rfl (Finset.Subset.refl _)
    · refine h.of_same loaded_rob ?_
      rw [loaded_events]
      exact Finset.subset_insert _ _
  · rcases addRepEvent_cases hs with ⟨nacks, kind, delay, rfl⟩ | ⟨r, -, rfl⟩
    · exact h.of_same rfl (Finset.Subset.refl _)
    · obtain ⟨i, hi, hx, entry, -⟩ := hc.awaits.entry call
        (List.mem_filter.mpr ⟨List.mem_of_getElem? hcall, isa⟩)
      rw [entry, Int.toNat_natCast]
      have zero : i = 0 := by
        by_contra hn
        rw [h.issued i hi (Nat.pos_of_ne_zero hn)] at hx
        cases hx
      subst zero
      generalize ceilByY time cfg.processInterval = u
      have get : ∀ j < s.o3rob.size,
        (((s.answered n).served u).complete (s.o3rob.slot 0) r).o3rob.get
          j = if j = 0 then { s.o3rob.get 0 with state := .completed, readyTime := r }
            else s.o3rob.get j := fun j hj =>
        writeRob_get hc.rings.robSize.le hi hj
          { s.o3rob.get 0 with state := .completed, readyTime := r }
      have serial : ∀ j < s.o3rob.size, ((((s.answered n).served u).complete (s.o3rob.slot 0)
          r).o3rob.get j).serial = (s.o3rob.get j).serial := by
        intro j hj
        rw [get j hj]
        split
        · rename_i hz
          rw [hz]
        · rfl
      refine ⟨fun i hi j hj => ?_, fun j hj hpos => ?_, fun j hj hpos => ?_, fun hs _ => .inl ?_⟩
      · rw [serial i hi, serial j hj]
        exact h.serial i hi j hj
      · rw [get j hj, if_neg hpos.ne']
        exact h.issued j hj hpos
      · rw [get j hj, if_neg hpos.ne']
        exact h.access j hj hpos
      · rw [get 0 hs, if_pos rfl]
        exact Finset.mem_insert_self _ _

theorem step_single (h : Single (fun _ => False) s) (ordered : Ordered s.now s)
    (hc : Consistent cfg s) (named : Named (fun _ => False) s.now s) (pending : Pending cfg s.now s)
    {e : CoreEvent} (ht : s.Timely e) (hs : step cfg s e = .ok s') (four : cfg.o3robMaxSize = 4)
    (w : 0 < cfg.maxCommitWidth) : Single (fun _ => False) s' := by
  cases e with
  | addInstruction x =>
    cases hs
    have same : (addInstruction cfg s x).1.o3rob = s.o3rob ∧
        s.events ⊆ (addInstruction cfg s x).1.events := by
      unfold addInstruction wakeUp
      dsimp only
      split <;> split <;> exact ⟨rfl, by first | exact Finset.Subset.refl _ |
        exact Finset.subset_insert _ _⟩
    exact h.of_same same.1 same.2
  | setActive isActive =>
    cases hs
    exact h.of_same rfl (Finset.Subset.refl _)
  | processEvent t =>
    cases hs
    exact dispatch_single h ordered hc named pending ht four w
  | answer n type time => exact answer_single h hc hs
  | migrate isMigrateReady =>
    cases hs
    exact h.of_same rfl (Finset.Subset.refl _)
  | advance t =>
    cases hs
    exact h.of_same rfl (Finset.Subset.refl _)

theorem timely_single {ok : O3Core → CoreEvent → Prop} (four : cfg.o3robMaxSize = 4)
    (w : 0 < cfg.maxCommitWidth) (h : TimelyRun cfg ok s) : Single (fun _ => False) s := by
  have clear : ∀ s e, StepClear cfg s e := by
    intro s e
    cases e with
    | processEvent t => exact fun _ => issueClear_four four _ _
    | _ => trivial
  induction h with
  | init =>
    exact ⟨fun i hi => absurd hi (Nat.not_lt_zero i), fun i hi => absurd hi (Nat.not_lt_zero i),
      fun i hi => absurd hi (Nat.not_lt_zero i), fun hs => absurd hs (Nat.lt_irrefl 0)⟩
  | step e hr ht _ hs ih =>
    exact step_single ih (timely_ordered (timely_clear hr clear)) (run_consistent hr.run)
      (timely_named hr) (timely_pending hr).1 ht hs four w

/-- Unless two entries may leave in a call and the reorder buffer has five, no call leaves a core
behind that has something to do and nothing to wait for. -/
theorem run_progress (w : Widths cfg)
    (fit : cfg.maxCommitWidth = 2 → cfg.o3robMaxSize = 5 →
      cfg.mimickInorder = true ∨ cfg.skipAllInstrs = true)
    (h : TimelyRun cfg (fun _ _ => True) s) (ht : s.Timely (.processEvent t))
    (some : 0 < (dispatch cfg s t).1.o3queue.size ∨ 0 < (dispatch cfg s t).1.o3rob.size) :
    Alive (dispatch cfg s t).1 := by
  obtain ⟨pending, left⟩ := timely_pending h
  refine dispatch_progress w fit (run_consistent h.run) (timely_named h) pending ?_ ht some
  intro hs hx
  by_cases four : cfg.o3robMaxSize = 4
  · exact .inl (((timely_single four w.commit h).head hs hx).resolve_right id)
  · exact (left hs hx).imp_right fun small => ⟨small, four⟩

/-- The default core, while an instruction waits for its line. -/
theorem run_progress_fetch : ∃ s, TimelyRun {} (fun _ _ => True) s ∧
    (dispatch {} s 0).1.o3queue.size = 1 ∧ Alive (dispatch {} s 0).1 := by
  let calls : List CoreEvent := [.addInstruction { hthreadid := 0, currTime := 0, ip := 64 }]
  let s := (follow {} (fun _ _ => True) (init {}) calls).getD (init {})
  have timely : TimelyRun {} (fun _ _ => True) s := TimelyRun.init.last calls (by decide +kernel)
  exact ⟨s, timely, by decide +kernel, run_progress
    ⟨by decide, by decide, by decide, by decide, by decide, by decide, by decide⟩
    (fun h => by cases h) timely (by decide +kernel) (.inl (by decide +kernel))⟩

/-- Five entries, of which two may leave in a call. The oldest is done last, so that two parts of
the next instruction are left over; when they leave, nobody looks at the instruction behind them. -/
theorem stranded_core : ∃ cfg s, 4 ≤ cfg.o3robMaxSize ∧ Widths cfg ∧
    TimelyRun cfg (fun _ _ => True) s ∧ s.Timely (.processEvent 800) ∧
    (skip cfg 800 s).hungry cfg = false ∧ (dispatch cfg s 800).1.o3queue.size = 1 ∧
    ¬ Alive (dispatch cfg s 800).1 := by
  let cfg : O3CoreConfig := { o3robMaxSize := 5, maxCommitWidth := 2 }
  let slow : PtsInstr := { hthreadid := 0, currTime := 0, ip := 64, raddr := 256 }
  let three : PtsInstr :=
    { hthreadid := 0, currTime := 0, ip := 64, raddr := 64, raddr2 := 128, waddr := 192 }
  let last : PtsInstr := { hthreadid := 0, currTime := 0, ip := 64 }
  let calls : List CoreEvent := [.addInstruction slow, .addInstruction three, .addInstruction last,
    .processEvent 0, .answer 0 .read 1, .processEvent 80, .processEvent 160, .answer 1 .read 161,
    .processEvent 240, .processEvent 320, .answer 1 .read 321, .processEvent 400, .processEvent 480,
    .answer 1 .read 481, .processEvent 560, .processEvent 640, .answer 0 .read 641,
    .processEvent 720]
  let s := (follow cfg (fun _ _ => True) (init cfg) calls).getD (init cfg)
  have timely : TimelyRun cfg (fun _ _ => True) s := TimelyRun.init.last calls (by decide +kernel)
  have quiet : (dispatch cfg s 800).1.events = ∅ ∧
    (dispatch cfg s 800).1.outstanding.length = 0 := by
    decide +kernel
  refine ⟨cfg, s, by decide, ⟨by decide, by decide, by decide, by decide, by decide, by decide,
    by decide⟩, timely, by decide +kernel, by decide +kernel, by decide +kernel, ?_⟩
  rintro (⟨u, hu⟩ | out)
  · rw [quiet.1] at hu
    exact Finset.notMem_empty u hu
  · exact out (List.length_eq_zero_iff.mp quiet.2)

end McSim.O3Core
