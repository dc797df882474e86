import McSim.O3CoreDependency

/-! What starts when.
Entries are followed by the number that they have among all that the reorder buffer has had: none
starts before its producers are done, whichever call it starts in. -/

namespace McSim

namespace O3Core

open Pthread (PtsInstr)

variable {cfg : O3CoreConfig} {s s' : O3Core} {t : Nat}

def entry (s : O3Core) (n : Nat) : O3Rob := s.history.getD n {}

theorem entry_live {i : Nat} (hi : i < s.o3rob.size) :
    s.entry (s.committed.length + i) = s.o3rob.get i := by
  unfold entry history
  rw [List.getD_eq_getElem?_getD, List.getElem?_append_right (Nat.le_add_right _ _),
    Nat.add_sub_cancel_left, RingBuffer.toList_getElem?, if_pos hi]
  rfl

theorem entry_left {n : Nat} (hn : n < s.committed.length) : s.entry n ∈ s.committed := by
  unfold entry history
  rw [List.getD_eq_getElem?_getD, List.getElem?_append_left hn, List.getElem?_eq_getElem hn]
  exact List.getElem_mem hn

theorem Persists.entry (h : Persists s s') {n : Nat} (hn : n < s.history.length) :
    (s'.entry n).fixed = (s.entry n).fixed := by
  obtain ⟨behind, hb⟩ := h
  have same : (s'.history.map O3Rob.fixed)[n]? = (s.history.map O3Rob.fixed)[n]? := by
    rw [← hb, List.getElem?_append_left (by simpa using hn)]
  rw [List.getElem?_map, List.getElem?_map, List.getElem?_eq_getElem hn] at same
  unfold O3Core.entry
  rw [List.getD_eq_getElem?_getD, List.getD_eq_getElem?_getD, List.getElem?_eq_getElem hn]
  cases hx : s'.history[n]? with
  | none =>
    rw [hx] at same
    cases same
  | some e =>
    rw [hx] at same
    exact Option.some.inj same

/-- Entry `n` leaves `issued`, or passes it over. -/
def Starts (s s' : O3Core) (n : Nat) : Prop :=
  n < s'.history.length ∧ (s'.entry n).state ≠ .issued ∧
    (n < s.history.length → (s.entry n).state = .issued)

/-- What changes while entries execute could start before, and is then executing unless it was the
oldest entry or has no access. -/
theorem execute_startable (hs : s.o3rob.size ≤ s.o3rob.cap) : SamePlace s (execute cfg t s) ∧
    ∀ j < s.o3rob.size, (execute cfg t s).o3rob.get j = s.o3rob.get j ∨ Startable t j s ∧
      (j = 0 ∨ (s.o3rob.get j).memaddr = 0 ∨
        ((execute cfg t s).o3rob.get j).state = .executing) := by
  have one : ∀ s₁ : O3Core, SamePlace s s₁ →
      (∀ j < s.o3rob.size, s₁.o3rob.get j = s.o3rob.get j ∨ Startable t j s ∧
        (j = 0 ∨ (s.o3rob.get j).memaddr = 0 ∨ (s₁.o3rob.get j).state = .executing)) →
      ∀ i e, Startable t i s₁ → (i = 0 ∨ (s₁.o3rob.get i).memaddr = 0 ∨ e.state = .executing) →
        ∀ j < s.o3rob.size,
          (s₁.writeRob (s₁.o3rob.slot i) e).o3rob.get j = s.o3rob.get j ∨ Startable t j s ∧
            (j = 0 ∨ (s.o3rob.get j).memaddr = 0 ∨
              ((s₁.writeRob (s₁.o3rob.slot i) e).o3rob.get j).state = .executing) := by
    intro s₁ place all i e hi he j hj
    have lt : i < s.o3rob.size := place.size ▸ hi.lt
    have hs₁ : s₁.o3rob.size ≤ s₁.o3rob.cap := place.size.symm ▸ place.cap.symm ▸ hs
    rw [writeRob_get hs₁ hi.lt (place.size.symm ▸ hj)]
    split
    · rename_i hji
      subst hji
      right
      rcases all j lt with same | ⟨start, first | none | executing⟩
      · exact ⟨⟨lt, same ▸ hi.issued, same ▸ hi.ready, same ▸ hi.free⟩, same ▸ he⟩
      · exact ⟨start, .inl first⟩
      · exact ⟨start, .inr (.inl none)⟩
      · rw [hi.issued] at executing
        cases executing
    · exact all j hj
  refine execute_keeps (P := fun s₁ => SamePlace s s₁ ∧
    ∀ j < s.o3rob.size, s₁.o3rob.get j = s.o3rob.get j ∨ Startable t j s ∧
      (j = 0 ∨ (s.o3rob.get j).memaddr = 0 ∨ (s₁.o3rob.get j).state = .executing))
    (fun _ hp => ⟨hp.1.trans ⟨rfl, rfl, rfl⟩, hp.2⟩) (fun s₁ i m r hp hi _ hm => ?_)
    (fun s₁ i hp hi _ => ?_) ⟨SamePlace.refl s, fun _ _ => .inl rfl⟩
  · exact ⟨hp.1.trans ⟨rfl, rfl, rfl⟩,
      one s₁ hp.1 hp.2 i { s₁.o3rob.get i with state := .completed, readyTime := r } hi
        (hm.imp_right .inl)⟩
  · have written := one s₁ hp.1 hp.2 i { s₁.o3rob.get i with state := .executing } hi
      (.inr (.inr rfl))
    unfold access
    dsimp only
    split
    · exact ⟨hp.1.trans ⟨rfl, rfl, rfl⟩, written⟩
    · exact ⟨hp.1.trans ⟨rfl, rfl, rfl⟩, written⟩

theorem phases_starts (h : Ordered t s) (hc : Consistent cfg s)
    (clear : IssueClear cfg t cfg.maxIssueWidth (fetch cfg t s)) {n : Nat}
    (hn : Starts s (phases cfg t s) n) {m : Nat} (hp : Produces (phases cfg t s).entry m n) :
    ((issue cfg t (fetch cfg t s)).entry m).done t = true := by
  have fetched : Fetched cfg s (fetch cfg t s) := (fetch_fetched hc.rings.queueSize).1
  have rob : (fetch cfg t s).o3rob = s.o3rob := fetched.same O3Core.o3rob fun _ _ _ => rfl
  have left : (fetch cfg t s).committed = s.committed :=
    fetched.same O3Core.committed fun _ _ _ => rfl
  obtain ⟨entered, new, list, issued⟩ := issue_stays (t := t) (fetched.consistent hc)
  have ordered := (h.phases hc clear).1
  unfold phases at hn hp
  -- `s₁` is the state in which the phase begins, and `s₂` the one before entries leave
  generalize hs₁ : issue cfg t (fetch cfg t s) = s₁ at *
  have consistent : Consistent cfg s₁ := entered.consistent
  have committed : s₁.committed = s.committed := entered.committed.trans left
  have executed := execute_stays (t := t) consistent
  have woken := wake_stays (t := t) executed.consistent
  have persists : Persists s₁ (wake cfg t (execute cfg t s₁)) :=
    executed.persists.trans woken.persists
  have executing : SamePlace s₁ (execute cfg t s₁) ∧ _ :=
    execute_startable consistent.rings.robSize.le
  obtain ⟨place, startable⟩ := executing
  have lighter := (wake_lighter cfg t executed.consistent.rings.robSize.le).1
  have left₂ : (wake cfg t (execute cfg t s₁)).committed = s₁.committed :=
    woken.committed.trans executed.committed
  have history := (commit_leaves (t := t) woken.consistent).history
  generalize hs₂ : wake cfg t (execute cfg t s₁) = s₂ at *
  have entry : ∀ n, (commit cfg t s₂).entry n = s₂.entry n := fun n => by
    unfold O3Core.entry
    rw [history]
  have length : s₂.history.length = s.committed.length + s₁.o3rob.size := by
    unfold O3Core.history
    rw [List.length_append, RingBuffer.toList_length, left₂, committed, lighter.size, place.size]
  have live : ∀ i < s₁.o3rob.size, s₁.entry (i + s.committed.length) = s₁.o3rob.get i := by
    intro i hi
    rw [Nat.add_comm, ← committed, entry_live hi]
  obtain ⟨hlt, hnot, hwas⟩ := hn
  rw [history, length] at hlt
  rw [entry] at hnot
  by_cases gone : n < s.committed.length
  · have issued := hwas (gone.trans_le (by unfold O3Core.history; simp))
    have done := h.committed _ (entry_left gone)
    rw [not_issued_done issued] at done
    cases done
  obtain ⟨j, rfl⟩ : ∃ j, n = j + s.committed.length := ⟨n - s.committed.length, by omega⟩
  have hj : j < s₁.o3rob.size := by omega
  have was : (s₁.o3rob.get j).state = .issued := by
    by_cases hold : j < s.o3rob.size
    · have at_j : s₁.o3rob.toList[j]? = some (s₁.o3rob.get j) := by
        rw [RingBuffer.toList_getElem?, if_pos hj]
      rw [list, rob, List.getElem?_append_left (by simpa using hold), RingBuffer.toList_getElem?,
        if_pos hold] at at_j
      rw [← Option.some.inj at_j, ← entry_live hold, Nat.add_comm]
      exact hwas (by unfold O3Core.history; simp; omega)
    · have at_j : s₁.o3rob.toList[j]? = some (s₁.o3rob.get j) := by
        rw [RingBuffer.toList_getElem?, if_pos hj]
      rw [list, rob, List.getElem?_append_right (by simpa using hold)] at at_j
      exact issued _ (List.mem_of_getElem? at_j)
  have hj₂ : j < s₂.o3rob.size := by
    rw [lighter.size, place.size]
    exact hj
  have start : Startable t j s₁ := by
    refine ((startable j hj).resolve_left fun same => hnot ?_).1
    rw [Nat.add_comm, ← committed, ← left₂, entry_live hj₂, lighter.state j (place.size ▸ hj), same]
    exact was
  by_cases hm : m < s.committed.length
  · exact ordered.committed _ (entry_left (committed ▸ hm))
  obtain ⟨i, rfl⟩ : ∃ i, m = i + s.committed.length := ⟨m - s.committed.length, by omega⟩
  have produced : Produces s₁.o3rob.get i j := by
    refine (produces_iff fun a _ ha => ?_).mp hp
    have hb : a < s₁.o3rob.size := ha.trans_lt hj
    rw [entry, persists.entry, live a hb]
    unfold O3Core.history
    rw [List.length_append, RingBuffer.toList_length, committed]
    omega
  rw [live i (produced.1.trans hj)]
  exact ordered.startable start i produced

/-- What a call may start, and what is waited for behind it. -/
def Sequenced (cfg : O3CoreConfig) (s : O3Core) : CoreEvent → O3Core → Prop
  | .processEvent t, s' =>
    ((skip cfg t s).hungry cfg = false → ∀ j < s'.o3rob.size, (s'.o3rob.get j).state = .issued →
      ∀ k, (s'.o3rob.get j).waitsFor k → ∃ i < j, k = s'.o3rob.slot i ∧
        (s'.o3rob.get i).done t = false) ∧
    ∀ n, Starts s s' n → ∀ m, Produces s'.entry m n →
      ((issue cfg t (beforeIssue cfg t s)).entry m).done t = true
  | _, s' => ∀ n, ¬ Starts s s' n

theorem not_starts (h : s'.history = s.history) (n : Nat) : ¬ Starts s s' n := by
  rintro ⟨hlt, hnot, hwas⟩
  refine hnot ?_
  unfold entry at hwas ⊢
  rw [h] at hlt ⊢
  exact hwas hlt

theorem dispatch_sequenced (h : Ordered s.now s) (hc : Consistent cfg s)
    (named : Named (fun _ => False) s.now s) (ht : s.Timely (.processEvent t))
    (clear : StepClear cfg s (.processEvent t)) :
    Sequenced cfg s (.processEvent t) (dispatch cfg s t).1 := by
  have now := named.ahead t ht.1
  refine ⟨fun hh => ((dispatch_named named hc now ht.2).2 hh).older, fun n hn m hp => ?_⟩
  have skipped : Ordered t (skip cfg t (s.take t)) :=
    (h.later now).of_same (skip_rob (s := s.take t)) skip_committed
  have taken : Consistent cfg (s.take t) :=
    hc.of_same rfl rfl rfl rfl rfl rfl
  have history : (skip cfg t (s.take t)).history = s.history := by
    unfold O3Core.history
    rw [skip_rob, skip_committed]
    rfl
  unfold dispatch processEvent at hn hp
  dsimp only at hn hp
  split at hn
  · exact absurd hn (not_starts history n)
  · rename_i hh
    rw [if_neg hh] at hp
    rw [hungry_take] at hh
    refine phases_starts skipped (skip_consistent taken) (clear (Bool.not_eq_true _ ▸ hh)) ?_ hp
    unfold Starts entry at hn ⊢
    rw [history]
    exact hn

theorem answer_not_starts (hc : Consistent cfg s) {n time : Nat} {type : EventType}
    (hs : answer cfg s n type time = .ok s') (k : Nat) : ¬ Starts s s' k := by
  obtain ⟨call, hcall, -⟩ := answer_cases hs
  obtain ⟨-, committed, reaches⟩ := answer_consistent hc hs
  have reaches := reaches call hcall
  split at reaches
  · obtain ⟨i, hi, hx, -, -, same | ⟨r, list⟩⟩ := reaches.entry
    · exact not_starts (by unfold history; rw [same, committed]) k
    · rintro ⟨hlt, hnot, hwas⟩
      have set : s'.history = s.history.set (s.committed.length + i)
          { s.o3rob.get i with state := .completed, readyTime := r } := by
        unfold history
        rw [committed, list, List.set_append_right _ _ (Nat.le_add_right _ _),
          Nat.add_sub_cancel_left]
      rw [set, List.length_set] at hlt
      have issued := hwas hlt
      by_cases hk : k = s.committed.length + i
      · rw [hk, entry_live hi, hx] at issued
        cases issued
      · refine hnot ?_
        unfold entry at issued ⊢
        rw [set, List.getD_eq_getElem?_getD, List.getElem?_set_ne (Ne.symm hk),
          ← List.getD_eq_getElem?_getD]
        exact issued
  · exact not_starts (by unfold history; rw [reaches, committed]) k

theorem step_sequenced (h : Ordered s.now s) (hc : Consistent cfg s)
    (named : Named (fun _ => False) s.now s) {e : CoreEvent} (ht : s.Timely e)
    (clear : StepClear cfg s e) (hs : step cfg s e = .ok s') : Sequenced cfg s e s' := by
  cases e with
  | addInstruction x =>
    cases hs
    have same : (addInstruction cfg s x).1.history = s.history := by
      unfold addInstruction wakeUp
      dsimp only
      split <;> split <;> rfl
    exact not_starts same
  | setActive isActive =>
    cases hs
    exact not_starts rfl
  | processEvent t =>
    cases hs
    exact dispatch_sequenced h hc named ht clear
  | answer n type time => exact answer_not_starts hc hs
  | migrate isMigrateReady =>
    cases hs
    exact not_starts rfl
  | advance t =>
    cases hs
    exact not_starts rfl

/-- Where no access to the word at 0 is hidden, dependencies name older entries that are not done or
whose tick is still to come, and no entry starts before its producers are done. -/
theorem run_sequenced (h : TimelyRun cfg (StepClear cfg) s) :
    (∀ j < s.o3rob.size, (s.o3rob.get j).state = .issued → ∀ k, (s.o3rob.get j).waitsFor k →
      ∃ i < j, k = s.o3rob.slot i ∧ ((s.o3rob.get i).state = .completed →
        s.now ≤ (s.o3rob.get i).readyTime ∧ (s.o3rob.get i).readyTime ∈ s.events)) ∧
    ∀ e s', s.Timely e → StepClear cfg s e → step cfg s e = .ok s' → Sequenced cfg s e s' := by
  have named := timely_named h
  refine ⟨fun j hj hx k hk => ?_, fun e s' ht clear hs =>
    step_sequenced (timely_ordered h) (run_consistent h.run) named ht clear hs⟩
  obtain ⟨i, hij, rfl, hc⟩ := named.older j hj hx k hk
  refine ⟨i, hij, rfl, fun hx => ?_⟩
  have hm := (hc hx).resolve_right id
  exact ⟨named.ahead _ hm, hm⟩

/-- A load and then a store of the word at 0. -/
theorem run_sequenced_pair : ∃ s, TimelyRun {} (StepClear {}) s ∧ s.o3rob.size = 2 ∧
    ∃ i < 1, 0 = s.o3rob.slot i ∧ ((s.o3rob.get i).state = .completed →
      s.now ≤ (s.o3rob.get i).readyTime ∧ (s.o3rob.get i).readyTime ∈ s.events) := by
  let load : PtsInstr := { hthreadid := 0, currTime := 0, ip := 64, raddr := 1 }
  let store : PtsInstr := { hthreadid := 0, currTime := 0, ip := 64, waddr := 2 }
  let calls : List CoreEvent := [.addInstruction load, .addInstruction store, .processEvent 0,
    .answer 0 .read 1, .processEvent 80, .processEvent 160]
  let s := (follow {} (StepClear {}) (init {}) calls).getD (init {})
  have timely : TimelyRun {} (StepClear {}) s := TimelyRun.init.last calls (by decide +kernel)
  exact ⟨s, timely, by decide +kernel,
    (run_sequenced timely).1 1 (by decide +kernel) (by decide +kernel) 0 (by decide +kernel)⟩

/-- With an instruction without accesses between them, the store starts while the load executes. -/
theorem hidden_load : ∃ s s', TimelyRun {} (fun _ _ => True) s ∧ s.Timely (.processEvent 320) ∧
    step {} s (.processEvent 320) = .ok s' ∧ Starts s s' 2 ∧ Produces s'.entry 0 2 ∧
    (s'.entry 0).state = .executing ∧ ¬ Sequenced {} s (.processEvent 320) s' := by
  let load : PtsInstr := { hthreadid := 0, currTime := 0, ip := 64, raddr := 1 }
  let other : PtsInstr := { hthreadid := 0, currTime := 0, ip := 64 }
  let store : PtsInstr := { hthreadid := 0, currTime := 0, ip := 64, waddr := 2 }
  let calls : List CoreEvent := [.addInstruction load, .addInstruction other,
    .addInstruction store, .processEvent 0, .answer 0 .read 1, .processEvent 80, .processEvent 160,
    .processEvent 240]
  let s := (follow {} (fun _ _ => True) (init {}) calls).getD (init {})
  have timely : TimelyRun {} (fun _ _ => True) s := TimelyRun.init.last calls (by decide +kernel)
  have starts : Starts s (dispatch {} s 320).1 2 :=
    ⟨by decide +kernel, by decide +kernel, fun _ => by decide +kernel⟩
  have produces : Produces (dispatch {} s 320).1.entry 0 2 :=
    ⟨by decide, .inr (.inr (.inl ⟨by decide +kernel, by decide +kernel, by decide +kernel⟩))⟩
  refine ⟨s, _, timely, by decide +kernel, rfl, starts, produces, by decide +kernel,
    fun sequenced => ?_⟩
  have early : ((issue {} 320 (beforeIssue {} 320 s)).entry 0).done 320 = false := by decide +kernel
  rw [sequenced.2 2 starts 0 produces] at early
  cases early

end O3Core
end McSim
