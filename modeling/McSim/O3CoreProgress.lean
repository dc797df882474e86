import McSim.O3CoreFetch
import McSim.O3CoreHistory
import McSim.O3CoreNamed

/-! Whether a core goes on.
A call that leaves neither an event nor a request behind has changed nothing but that entries left
the reorder buffer; where it leaves something in the rings, the commit width is at fault. -/

namespace McSim.O3Core

variable {cfg : O3CoreConfig} {s s' s₁ s₂ : O3Core} {t : Nat}

structure Widths (cfg : O3CoreConfig) : Prop where
  issue : 0 < cfg.maxIssueWidth
  commit : 0 < cfg.maxCommitWidth
  alu : 0 < cfg.maxAlu
  ldst : 0 < cfg.maxLdst
  ld : 0 < cfg.maxLd
  st : 0 < cfg.maxSt
  sse : 0 < cfg.maxSse

/-- An event is to come, or a request is out. -/
def Alive (s : O3Core) : Prop := s.events.Nonempty ∨ s.outstanding ≠ []

theorem addEvent_alive (s : O3Core) (u : Nat) : Alive (s.addEvent u) :=
  .inl ⟨u, Finset.mem_insert_self u s.events⟩

theorem issueInstr_events (cfg : O3CoreConfig) (t : Nat) (x : O3Instr)
    (h : s.o3rob.size + 3 < s.o3rob.cap) :
    (issueInstr cfg t x s).events = insert (t + cfg.processInterval) s.events ∧
      (issueInstr cfg t x s).outstanding = s.outstanding := by
  obtain ⟨s₁, parts, eq⟩ := issueInstr_parts cfg t x h
  have events : s₁.events = _ := parts.grown.same O3Core.events fun _ _ => rfl
  have outstanding : s₁.outstanding = _ := parts.grown.same O3Core.outstanding fun _ _ => rfl
  rw [eq]
  exact ⟨events, outstanding⟩

theorem issueInstr_alive {x : O3Instr} (h : s.o3rob.size + 3 < s.o3rob.cap) :
    Alive (issueInstr cfg t x s) := by
  refine .inl ⟨t + cfg.processInterval, ?_⟩
  rw [(issueInstr_events cfg t x h).1]
  exact Finset.mem_insert_self _ _

theorem issueLoop_idle (n : Nat) (hc : Consistent cfg s) (h : ¬ Alive (issueLoop cfg t n s)) :
    issueLoop cfg t n s = s ∧ (0 < n → 0 < s.o3queue.size →
      (s.o3queue.slots s.o3queue.head).state = .ready →
      (s.o3queue.slots s.o3queue.head).readyTime ≤ t → cfg.o3robMaxSize - 3 ≤ s.o3rob.size) := by
  induction n with
  | zero => exact ⟨rfl, fun hn => absurd hn (Nat.lt_irrefl 0)⟩
  | succ n ih =>
    unfold issueLoop at h ⊢
    split at h
    · rename_i room
      rw [if_pos room]
      have small : s.o3rob.size + 3 < s.o3rob.cap := by
        rw [hc.rings.robCap]
        omega
      unfold issueOne at h ⊢
      dsimp only at h ⊢
      split at h
      · -- an instruction has entered, and its event stays
        refine absurd ?_ h
        exact (issueLoop_keeps (P := fun s => Alive s ∧ Consistent cfg s) (fun s hp hq room _ _ =>
          ⟨issueInstr_alive (by rw [hp.2.rings.robCap]; omega), issueInstr_consistent hp.2 hq room⟩)
          n ⟨issueInstr_alive small, issueInstr_consistent hc room.1 room.2⟩).1
      · rename_i wait
        rw [if_neg wait]
        exact ⟨(ih h).1, fun _ _ hr ht => absurd ⟨hr, ht⟩ wait⟩
    · rename_i full
      rw [if_neg full]
      exact ⟨rfl, fun _ hq _ _ => Nat.not_lt.mp fun hlt => full ⟨hq, hlt⟩⟩

theorem access_alive {k n : Nat} : Alive (access cfg t k n s) := by
  right
  unfold access
  dsimp only
  split <;> exact List.append_ne_nil_of_right_ne_nil _ (List.cons_ne_nil _ _)

theorem executeOne_idle (w : Widths cfg) (i : Nat) :
    Alive (executeOne cfg t i s {}).1.1 ∨ executeOne cfg t i s {} = ((s, {}), true) ∧
      cfg.mimickInorder = false ∧ ¬ ((s.o3rob.get i).state = .issued ∧
        (s.o3rob.get i).readyTime ≤ t ∧ (s.o3rob.get i).free = true) := by
  unfold executeOne
  dsimp only
  split
  · split
    · split
      · exact .inl (addEvent_alive _ _)
      · exact .inl (addEvent_alive _ _)
    · split
      · split
        · exact .inl (addEvent_alive _ _)
        · exact .inl (addEvent_alive _ _)
      · split
        · left
          unfold start
          dsimp only
          split
          · exact addEvent_alive _ _
          · rename_i alu
            split
            · exact access_alive
            · rename_i mem
              exfalso
              have none : (s.o3rob.slots (s.o3rob.slot i)).memaddr ≠ 0 := fun hz =>
                alu ⟨hz, w.alu, .inr w.sse⟩
              cases hx : (s.o3rob.slots (s.o3rob.slot i)).isread with
              | true => exact mem ⟨none, w.ldst, .inl ⟨hx, w.ld⟩⟩
              | false => exact mem ⟨none, w.ldst, .inr ⟨hx, w.st⟩⟩
        · rename_i waits
          split
          · exact .inl (addEvent_alive _ _)
          · rename_i any
            exact .inr ⟨rfl, Bool.not_eq_true _ ▸ any, fun h => waits h.2.2⟩
  · rename_i other
    split
    · exact .inl (addEvent_alive _ _)
    · rename_i any
      exact .inr ⟨rfl, Bool.not_eq_true _ ▸ any, fun h => other ⟨h.1, h.2.1⟩⟩

theorem execute_idle (w : Widths cfg) (h : ¬ Alive (execute cfg t s)) : execute cfg t s = s ∧
    ∀ i < s.o3rob.size, cfg.mimickInorder = false ∧ ¬ ((s.o3rob.get i).state = .issued ∧
      (s.o3rob.get i).readyTime ≤ t ∧ (s.o3rob.get i).free = true) := by
  have loop : ∀ is : List Nat, (∀ i ∈ is, i < s.o3rob.size) →
      ¬ Alive (executeLoop cfg t is s {}) → executeLoop cfg t is s {} = s ∧
        ∀ i ∈ is, cfg.mimickInorder = false ∧ ¬ ((s.o3rob.get i).state = .issued ∧
          (s.o3rob.get i).readyTime ≤ t ∧ (s.o3rob.get i).free = true) := by
    intro is his h
    induction is with
    | nil => exact ⟨rfl, by simp⟩
    | cons i is ih =>
      have rest : ∀ j ∈ is, j < s.o3rob.size := fun j hj => his j (List.mem_cons_of_mem _ hj)
      unfold executeLoop at h ⊢
      dsimp only at h ⊢
      rcases executeOne_idle (s := s) (t := t) w i with alive | ⟨same, idle⟩
      · refine absurd ?_ h
        split
        · refine executeLoop_keeps (P := Alive) (fun _ _ => addEvent_alive _ _)
            (fun _ _ _ _ _ _ _ _ => addEvent_alive _ _) (fun _ _ _ _ _ => access_alive) is
            (fun j hj => ?_) _ alive
          rw [(executeOne_samePlace t i s {}).size]
          exact rest j hj
        · exact alive
      · rw [same] at h ⊢
        obtain ⟨eq, all⟩ := ih rest h
        exact ⟨eq, List.forall_mem_cons.mpr ⟨idle, all⟩⟩
  obtain ⟨eq, all⟩ := loop (List.range s.o3rob.size) (fun i hi => List.mem_range.mp hi) h
  exact ⟨eq, fun i hi => all i (List.mem_range.mpr hi)⟩

theorem clearLoop_alive (k : Nat) (js : List Nat) (h : Alive s) :
    Alive (js.foldl (clearOne k) s) := by
  induction js generalizing s with
  | nil => exact h
  | cons j js ih =>
    refine ih ?_
    unfold clearOne
    dsimp only
    split <;> exact h

theorem wake_idle (h : ¬ Alive (wake cfg t s)) : wake cfg t s = s ∧
    ∀ i < s.o3rob.size, ¬ Wakes t i s := by
  have keeps : ∀ (is : List Nat) (s : O3Core), Alive s → Alive (is.foldl (wakeOne cfg t) s) := by
    intro is
    induction is with
    | nil => exact fun _ h => h
    | cons i is ih =>
      intro s h
      refine ih _ ?_
      unfold wakeOne
      dsimp only
      split
      · exact clearLoop_alive _ _ (addEvent_alive _ _)
      · exact h
  have loop : ∀ is : List Nat, ¬ Alive (is.foldl (wakeOne cfg t) s) →
      is.foldl (wakeOne cfg t) s = s ∧ ∀ i ∈ is, ¬ Wakes t i s := by
    intro is h
    induction is with
    | nil => exact ⟨rfl, by simp⟩
    | cons i is ih =>
      rw [List.foldl_cons] at h ⊢
      by_cases hw : Wakes t i s
      · have one : wakeOne cfg t s i = (List.range' (i + 1) (s.o3rob.size - (i + 1))).foldl
            (clearOne (s.o3rob.slot i)) (retry cfg t s) := if_pos hw
        rw [one] at h
        exact absurd (keeps is _ (clearLoop_alive _ _ (addEvent_alive _ _))) h
      · have one : wakeOne cfg t s i = s := if_neg hw
        rw [one] at h ⊢
        obtain ⟨eq, all⟩ := ih h
        exact ⟨eq, List.forall_mem_cons.mpr ⟨hw, all⟩⟩
  obtain ⟨eq, all⟩ := loop (List.range s.o3rob.size) h
  exact ⟨eq, fun i hi => all i (List.mem_range.mpr hi)⟩

theorem commitLoop_stuck (n : Nat) (hd : (s.o3rob.slots s.o3rob.head).done t = false) :
    commitLoop t n s = s := by
  induction n with
  | zero => rfl
  | succ n ih =>
    unfold commitLoop
    rw [if_neg (Bool.eq_false_iff.mp hd), ih]
    split <;> rfl

theorem commitLoop_full (n : Nat) (some : 0 < (commitLoop t n s).o3rob.size)
    (done : ((commitLoop t n s).o3rob.slots (commitLoop t n s).o3rob.head).done t = true) :
    (commitLoop t n s).o3rob.size + n = s.o3rob.size := by
  induction n generalizing s with
  | zero => rfl
  | succ n ih =>
    cases hd : (s.o3rob.slots s.o3rob.head).done t with
    | true =>
      unfold commitLoop at some done ⊢
      by_cases hs : 0 < s.o3rob.size
      · rw [if_pos hs, if_pos hd] at some done ⊢
        have one := ih some done
        have size : s.commitOne.o3rob.size = s.o3rob.size - 1 := rfl
        omega
      · rw [if_neg hs] at some
        exact absurd some hs
    | false =>
      rw [commitLoop_stuck _ hd, hd] at done
      cases done

theorem commitLoop_queue (n : Nat) : (commitLoop t n s).o3queue = s.o3queue :=
  commitLoop_keeps (P := fun s₁ => s₁.o3queue = s.o3queue) (fun _ hp _ _ => hp) n rfl

/-- At `t`, a line that is being loaded has been requested, and every entry that is to be looked at
has its tick to come or behind it. -/
structure Pending (cfg : O3CoreConfig) (t : Nat) (s : O3Core) : Prop where
  loading : ∀ i < s.o3queue.size, (s.o3queue.get i).state = .beingLoaded →
    ∃ c ∈ s.outstanding, isFetch c = true ∧
      c.lqe.address >>> cfg.setLsb = (s.o3queue.get i).instr.ip >>> cfg.setLsb
  ready : ∀ i < s.o3queue.size, (s.o3queue.get i).state = .ready →
    (s.o3queue.get i).readyTime ∈ s.events ∨ (s.o3queue.get i).readyTime ≤ t
  valid : ∀ i < s.o3queue.size, (s.o3queue.get i).state ≠ .invalid
  issued : ∀ i < s.o3rob.size, (s.o3rob.get i).state = .issued →
    (s.o3rob.get i).readyTime ∈ s.events ∨ (s.o3rob.get i).readyTime ≤ t
  live : ∀ i < s.o3rob.size, (s.o3rob.get i).state ≠ .invalid

theorem Pending.rob (h : Pending cfg t s) (queue : s'.o3queue = s.o3queue)
    (events : s.events ⊆ s'.events)
    (out : Refetched s s')
    (hr : ∀ i < s'.o3rob.size, (s'.o3rob.get i).state ≠ .invalid ∧
      ((s'.o3rob.get i).state = .issued →
        (s'.o3rob.get i).readyTime ∈ s'.events ∨ (s'.o3rob.get i).readyTime ≤ t)) :
    Pending cfg t s' where
  loading := Loading.of_same h.loading queue out
  ready := by
    rw [queue]
    exact fun i hi hx => (h.ready i hi hx).imp_left fun hm => events hm
  valid := by
    rw [queue]
    exact h.valid
  issued i hi := (hr i hi).2
  live i hi := (hr i hi).1

theorem Pending.of_same (h : Pending cfg t s) (queue : s'.o3queue = s.o3queue)
    (rob : s'.o3rob = s.o3rob) (events : s.events ⊆ s'.events)
    (out : Refetched s s') : Pending cfg t s' := by
  refine h.rob queue events out fun i hi => ?_
  rw [rob] at hi ⊢
  exact ⟨h.live i hi, fun hx => (h.issued i hi hx).imp_left fun hm => events hm⟩

theorem Pending.later (h : Pending cfg t s) {u : Nat} (hu : t ≤ u) : Pending cfg u s where
  loading := h.loading
  ready i hi hx := (h.ready i hi hx).imp_right fun hl => hl.trans hu
  valid := h.valid
  issued i hi hx := (h.issued i hi hx).imp_right fun hl => hl.trans hu
  live := h.live

theorem Pending.take (h : Pending cfg t s) :
    Pending cfg t (s.take t) := by
  have due : ∀ r, r ∈ s.events ∨ r ≤ t → r ∈ s.events.erase t ∨ r ≤ t := by
    rintro r (hm | hl)
    · by_cases he : r = t
      · exact .inr he.le
      · exact .inl (Finset.mem_erase.mpr ⟨he, hm⟩)
    · exact .inr hl
  exact ⟨h.loading, fun i hi hx => due _ (h.ready i hi hx), h.valid,
    fun i hi hx => due _ (h.issued i hi hx), h.live⟩

theorem Pending.fetch (h : Pending cfg t s) (hf : Fetched cfg s s') : Pending cfg t s' := by
  have rob : s'.o3rob = s.o3rob := hf.same O3Core.o3rob fun _ _ _ => rfl
  have events : s'.events = s.events := hf.same O3Core.events fun _ _ _ => rfl
  constructor
  · exact Loading.fetch h.loading hf
  · intro i hi hx
    rw [hf.size] at hi
    rcases hf.entry i hi with same | ⟨-, load, -⟩
    · rw [same] at hx ⊢
      rw [events]
      exact h.ready i hi hx
    · rw [load] at hx
      cases hx
  · intro i hi
    rw [hf.size] at hi
    rcases hf.entry i hi with same | ⟨-, load, -⟩
    · rw [same]
      exact h.valid i hi
    · rw [load]
      exact fun hx => by cases hx
  · rw [rob, events]
    exact h.issued
  · rw [rob]
    exact h.live

theorem Pending.issueInstr (h : Pending cfg t s) (hc : Consistent cfg s)
    (room : s.o3rob.size < cfg.o3robMaxSize - 3) :
    Pending cfg t (issueInstr cfg t (s.o3queue.slots s.o3queue.head).instr s) := by
  have hr := hc.rings
  have room : s.o3rob.size + 3 < s.o3rob.cap := by
    rw [hr.robCap]
    omega
  obtain ⟨new, he, hnew⟩ := issueInstr_enters cfg t (s.o3queue.slots s.o3queue.head).instr room
  obtain ⟨events, out⟩ := issueInstr_events cfg t (s.o3queue.slots s.o3queue.head).instr room
  generalize O3Core.issueInstr cfg t (s.o3queue.slots s.o3queue.head).instr s = s' at *
  have get : ∀ i < s'.o3queue.size, i + 1 < s.o3queue.size ∧
      s'.o3queue.get i = s.o3queue.get (i + 1) := by
    intro i hi
    rw [he.queue] at hi ⊢
    have hi : i + 1 < s.o3queue.size := Nat.add_lt_of_lt_sub hi
    exact ⟨hi, RingBuffer.get_write_pop hr.queueHead (hi.trans_le hr.queueSize)⟩
  have back : ∀ i < s'.o3rob.size, s'.o3rob.get i = s.o3rob.get i ∧ i < s.o3rob.size ∨
      (s'.o3rob.get i).state = .issued ∧ (s'.o3rob.get i).readyTime = t + cfg.processInterval := by
    intro i hi
    by_cases old : i < s.o3rob.size
    · exact .inl ⟨he.old i old, old⟩
    · obtain ⟨k, memDep, instrDep, eq⟩ := hnew _ (he.get_new hi old)
      rw [eq]
      exact .inr ⟨rfl, rfl⟩
  have more : s.events ⊆ s'.events := by
    rw [events]
    exact Finset.subset_insert _ _
  constructor
  · intro i hi hx
    rw [(get i hi).2] at hx ⊢
    rw [out]
    exact h.loading (i + 1) (get i hi).1 hx
  · intro i hi hx
    rw [(get i hi).2] at hx ⊢
    exact (h.ready (i + 1) (get i hi).1 hx).imp_left fun hm => more hm
  · intro i hi
    rw [(get i hi).2]
    exact h.valid (i + 1) (get i hi).1
  · intro i hi hx
    rcases back i hi with ⟨same, old⟩ | ⟨-, rt⟩
    · rw [same] at hx ⊢
      exact (h.issued i old hx).imp_left fun hm => more hm
    · rw [rt, events]
      exact .inl (Finset.mem_insert_self _ _)
  · intro i hi
    rcases back i hi with ⟨same, old⟩ | ⟨issued, -⟩
    · rw [same]
      exact h.live i old
    · rw [issued]
      exact fun hx => by cases hx

theorem Pending.write (h : Pending cfg t s) (hs : s.o3rob.size ≤ s.o3rob.cap) {i : Nat}
    (hi : i < s.o3rob.size) {e : O3Rob} (live : e.state ≠ .invalid)
    (issued : e.state = .issued → (s.o3rob.get i).state = .issued ∧
      e.readyTime = (s.o3rob.get i).readyTime) :
    Pending cfg t (s.writeRob (s.o3rob.slot i) e) := by
  refine h.rob rfl (Finset.Subset.refl _) (refetched_of_subset fun _ hc => hc) fun j hj => ?_
  have hj : j < s.o3rob.size := hj
  rw [writeRob_get hs hi hj]
  split
  · refine ⟨live, fun hx => ?_⟩
    rw [(issued hx).2]
    exact h.issued i hi (issued hx).1
  · exact ⟨h.live j hj, h.issued j hj⟩

theorem Pending.execute (h : Pending cfg t s) (hs : s.o3rob.size ≤ s.o3rob.cap) :
    Pending cfg t (execute cfg t s) := by
  refine (execute_keeps (P := fun s₁ => Pending cfg t s₁ ∧ s₁.o3rob.size ≤ s₁.o3rob.cap)
    (fun s₁ hp => ⟨hp.1.of_same rfl rfl (Finset.subset_insert _ _)
      (refetched_of_subset fun _ hc => hc), hp.2⟩)
    (fun s₁ i m r hp hi _ _ => ?_) (fun s₁ i hp hi _ => ?_) ⟨h, hs⟩).1
  · have written : Pending cfg t (s₁.writeRob (s₁.o3rob.slot i)
        { s₁.o3rob.get i with state := .completed, readyTime := r }) :=
      hp.1.write hp.2 hi.lt (fun hx => by cases hx) fun hx => by cases hx
    exact ⟨written.of_same rfl rfl (Finset.subset_insert _ _) (refetched_of_subset fun _ hc => hc),
      hp.2⟩
  · have written : Pending cfg t (s₁.writeRob (s₁.o3rob.slot i)
        { s₁.o3rob.get i with state := .executing }) :=
      hp.1.write hp.2 hi.lt (fun hx => by cases hx) fun hx => by cases hx
    have sent : ∀ c, Pending cfg t { s₁.writeRob (s₁.o3rob.slot i)
        { s₁.o3rob.get i with state := .executing } with outstanding := s₁.outstanding ++ [c] } :=
      fun c => written.of_same rfl rfl (Finset.Subset.refl _) (refetched_of_subset fun _ hc =>
        List.mem_append_left _ hc)
    unfold access
    dsimp only
    split
    · exact ⟨sent _, hp.2⟩
    · exact ⟨sent _, hp.2⟩

theorem Pending.wake (h : Pending cfg t s) (hs : s.o3rob.size ≤ s.o3rob.cap) :
    Pending cfg t (wake cfg t s) :=
  (wake_keeps (fun _ hp => hp.of_same rfl rfl (Finset.subset_insert _ _)
    (refetched_of_subset fun _ hc => hc))
    (fun _ _ _ hp _ hj hs₁ _ issued => hp.write hs₁ hj
      (hp.live _ hj) fun _ => ⟨issued, rfl⟩) hs h).1

theorem Pending.commitOne (h : Pending cfg t s) (hr : Rings cfg s) : Pending cfg t s.commitOne := by
  refine h.rob rfl (Finset.Subset.refl _) (refetched_of_subset fun _ hc => hc) fun i hi => ?_
  have hi : i + 1 < s.o3rob.size := Nat.add_lt_of_lt_sub hi
  rw [commitOne_get hr hi]
  exact ⟨h.live (i + 1) hi, h.issued (i + 1) hi⟩

/-- An entry that is left over at the head either has its tick to come, or those that left before it
had used up the width. -/
def Leftover (cfg : O3CoreConfig) (s : O3Core) : Prop :=
  0 < s.o3rob.size → (s.o3rob.get 0).state = .completed →
    (s.o3rob.get 0).readyTime ∈ s.events ∨
      s.o3rob.size + cfg.maxCommitWidth < cfg.o3robMaxSize

/-- What holds before each phase of a call at `t`. -/
structure InCall (cfg : O3CoreConfig) (t : Nat) (s : O3Core) : Prop where
  consistent : Consistent cfg s
  named : Named (· = t) t s
  pending : Pending cfg t s

theorem InCall.fetch (h : InCall cfg t s) : InCall cfg t (fetch cfg t s) := by
  have fetched : Fetched cfg s (O3Core.fetch cfg t s) :=
    (fetch_fetched h.consistent.rings.queueSize).1
  exact ⟨fetched.consistent h.consistent, h.named.fetch h.consistent.rings.queueSize,
    h.pending.fetch fetched⟩

theorem InCall.issue (h : InCall cfg t s) : InCall cfg t (issue cfg t s) :=
  issueLoop_keeps (P := InCall cfg t) (fun s hp hq room _ _ =>
    ⟨issueInstr_consistent hp.consistent hq room,
      hp.named.issueInstr _ (by rw [hp.consistent.rings.robCap]; omega),
      hp.pending.issueInstr hp.consistent room⟩) _ h

theorem InCall.execute (h : InCall cfg t s) : InCall cfg t (execute cfg t s) :=
  have hs := h.consistent.rings.robSize.le
  ⟨execute_consistent h.consistent, (h.named.execute hs).1, h.pending.execute hs⟩

theorem commit_pending (h : Pending cfg t s) (hc : Consistent cfg s) (named : Awake t s) :
    Pending cfg t (commit cfg t s) ∧ Leftover cfg (commit cfg t s) := by
  have left := commit_leaves (t := t) hc
  have loop := commitLoop_leaves (t := t) cfg.maxCommitWidth hc
  have awake := named.commit hc
  have pending : Pending cfg t (commit cfg t s) :=
    (commit_keeps (P := fun s => Pending cfg t s ∧ Consistent cfg s) (fun _ hp =>
      ⟨hp.1.of_same rfl rfl (Finset.subset_insert _ _) (refetched_of_subset fun _ hc => hc),
      retry_consistent hp.2⟩)
      (fun _ hp hs hd => ⟨hp.1.commitOne hp.2.rings, commitOne_consistent hp.2 hs hd⟩) ⟨h, hc⟩).1
  refine ⟨pending, fun hs hx => ?_⟩
  rcases awake.completed 0 hs hx with hm | hle
  · exact .inl hm
  · right
    have ring : (commit cfg t s).o3rob = (commitLoop t cfg.maxCommitWidth s).o3rob := by
      unfold commit
      dsimp only
      split <;> rfl
    have head := RingBuffer.slot_zero left.consistent.rings.robHead
    have done : ((commit cfg t s).o3rob.slots (commit cfg t s).o3rob.head).done t = true := by
      rw [← head]
      exact O3Rob.done_iff.mpr ⟨hx, hle⟩
    have full := commitLoop_full (s := s) (t := t) cfg.maxCommitWidth (ring ▸ hs) (ring ▸ done)
    rw [ring, full, ← hc.rings.robCap]
    exact hc.rings.robSize

theorem phases_idle (w : Widths cfg) (h : InCall cfg t s) (hn : ¬ Alive (phases cfg t s)) :
    phases cfg t s = commit cfg t (fetch cfg t s) ∧
    (∀ i < (fetch cfg t s).o3rob.size, cfg.mimickInorder = false ∧
      ¬ (((fetch cfg t s).o3rob.get i).state = .issued ∧
        ((fetch cfg t s).o3rob.get i).readyTime ≤ t ∧
        ((fetch cfg t s).o3rob.get i).free = true)) ∧
    (∀ i < (fetch cfg t s).o3rob.size, ¬ Wakes t i (fetch cfg t s)) ∧
    (0 < (fetch cfg t s).o3queue.size →
      ((fetch cfg t s).o3queue.slots (fetch cfg t s).o3queue.head).state = .ready →
      ((fetch cfg t s).o3queue.slots (fetch cfg t s).o3queue.head).readyTime ≤ t →
      cfg.o3robMaxSize - 3 ≤ (fetch cfg t s).o3rob.size) := by
  unfold phases at hn ⊢
  have woken : ¬ Alive (wake cfg t (execute cfg t (issue cfg t (fetch cfg t s)))) := fun ha =>
    hn (commit_keeps (P := Alive) (fun _ _ => addEvent_alive _ _) (fun _ hp _ _ => hp) ha)
  obtain ⟨same, calm⟩ := wake_idle woken
  rw [same] at woken ⊢
  obtain ⟨same, idle⟩ := execute_idle w woken
  rw [same] at woken calm ⊢
  obtain ⟨same, full⟩ := issueLoop_idle cfg.maxIssueWidth h.fetch.consistent woken
  rw [issue, same] at idle calm ⊢
  exact ⟨rfl, idle, calm, full w.issue⟩

theorem idle_done (h : InCall cfg t s) (hn : ¬ Alive s)
    (idle : ∀ i < s.o3rob.size, ¬ ((s.o3rob.get i).state = .issued ∧
      (s.o3rob.get i).readyTime ≤ t ∧ (s.o3rob.get i).free = true))
    (calm : ∀ i < s.o3rob.size, ¬ Wakes t i s) {i : Nat} (hi : i < s.o3rob.size) :
    (s.o3rob.get i).state = .completed ∧ (s.o3rob.get i).readyTime < t := by
  have noEvent : ∀ u, u ∉ s.events := fun u hu => hn (.inl ⟨u, hu⟩)
  have noCall : s.outstanding = [] := by
    by_contra ho
    exact hn (.inr ho)
  have completed : ∀ j < s.o3rob.size, (s.o3rob.get j).state = .completed →
      (s.o3rob.get j).readyTime < t := by
    intro j hj hx
    have le := (h.named.completed j hj hx).resolve_left (noEvent _)
    exact lt_of_le_of_ne le fun he => calm j hj ⟨hx, he⟩
  induction i using Nat.strong_induction_on with
  | _ i ih =>
    cases hx : (s.o3rob.get i).state with
    | completed => exact ⟨rfl, completed i hi hx⟩
    | issued =>
      -- what it could wait for is done, and its tick is over
      exfalso
      refine idle i hi ⟨hx, (h.pending.issued i hi hx).resolve_left (noEvent _), ?_⟩
      refine O3Rob.free_iff.mpr fun k hk => ?_
      obtain ⟨j, hji, rfl, hc⟩ := h.named.older i hi hx k hk
      have done := ih j hji (hji.trans hi)
      rcases hc done.1 with hm | he
      · exact noEvent _ hm
      · exact done.2.ne he
    | executing =>
      exfalso
      have one := h.consistent.awaits.one i hi hx
      rw [accesses, noCall] at one
      cases one
    | invalid => exact absurd hx (h.pending.live i hi)

theorem commit_empties (hc : Consistent cfg s)
    (all : ∀ i < s.o3rob.size, (s.o3rob.get i).done t = true) (hn : ¬ Alive (commit cfg t s)) :
      (commit cfg t s).o3rob.size = 0 ∧
      s.o3rob.size ≤ cfg.maxCommitWidth ∧ (commit cfg t s).o3queue = s.o3queue := by
  have loop := commitLoop_leaves (t := t) cfg.maxCommitWidth hc
  have kept := commitLoop_keeps (t := t) (P := fun s₁ => Consistent cfg s₁ ∧
      ∀ i < s₁.o3rob.size, (s₁.o3rob.get i).done t = true)
    (fun s₁ hp hs hd => ⟨commitOne_consistent hp.1 hs hd, fun i hi => by
      have hi : i + 1 < s₁.o3rob.size := Nat.add_lt_of_lt_sub hi
      rw [commitOne_get hp.1.rings hi]
      exact hp.2 (i + 1) hi⟩) cfg.maxCommitWidth ⟨hc, all⟩
  have queue : (commitLoop t cfg.maxCommitWidth s).o3queue = s.o3queue := commitLoop_queue _
  unfold commit at hn ⊢
  dsimp only at hn ⊢
  split at hn
  · exact absurd (addEvent_alive _ _) hn
  · rename_i stop
    rw [if_neg stop]
    have none : (commitLoop t cfg.maxCommitWidth s).o3rob.size = 0 := by
      by_contra hs
      have hs := Nat.pos_of_ne_zero hs
      refine stop ⟨hs, ?_⟩
      rw [← RingBuffer.slot_zero loop.consistent.rings.robHead]
      exact kept.2 0 hs
    obtain ⟨new, left, few, -⟩ := loop.left
    have length := congrArg List.length loop.history
    unfold history at length
    rw [List.length_append, List.length_append, RingBuffer.toList_length, RingBuffer.toList_length,
      none, left, List.length_append] at length
    exact ⟨none, by omega, queue⟩

theorem phases_progress (w : Widths cfg)
    (fit : cfg.maxCommitWidth = 2 → cfg.o3robMaxSize = 5 →
      cfg.mimickInorder = true ∨ s.o3queue.size = 0) (h : InCall cfg t s)
    (left : 0 < s.o3rob.size → (s.o3rob.get 0).state = .completed →
      (s.o3rob.get 0).readyTime ∈ s.events ∨ (s.o3rob.get 0).readyTime = t ∨
        s.o3rob.size + cfg.maxCommitWidth < cfg.o3robMaxSize ∧ cfg.o3robMaxSize ≠ 4)
    (some : 0 < (phases cfg t s).o3queue.size ∨ 0 < (phases cfg t s).o3rob.size) :
    Alive (phases cfg t s) := by
  by_contra hn
  obtain ⟨same, idle, calm, full⟩ := phases_idle w h hn
  have fetched : Fetched cfg s (fetch cfg t s) ∧ _ := fetch_fetched h.consistent.rings.queueSize
  have rob : (fetch cfg t s).o3rob = s.o3rob := fetched.1.same O3Core.o3rob fun _ _ _ => rfl
  have events : (fetch cfg t s).events = s.events := fetched.1.same O3Core.events fun _ _ _ => rfl
  have inCall := h.fetch
  rw [same] at hn some
  have calmed : ¬ Alive (fetch cfg t s) := fun ha =>
    hn (commit_keeps (P := Alive) (fun _ _ => addEvent_alive _ _) (fun _ hp _ _ => hp) ha)
  have all := fun i hi => idle_done inCall calmed (fun j hj => (idle j hj).2) calm (i := i) hi
  have wait := fetched.1.entry
  have sent := fetched.2
  have size := fetched.1.size
  generalize fetch cfg t s = s₁ at *
  have noEvent : ∀ u, u ∉ s₁.events := fun u hu => calmed (.inl ⟨u, hu⟩)
  have noCall : ∀ c, c ∉ s₁.outstanding := fun c hc => calmed (.inr (List.ne_nil_of_mem hc))
  have few := commit_empties inCall.consistent (fun i hi => O3Rob.done_iff.mpr
    ⟨(all i hi).1, (all i hi).2.le⟩) hn
  have hq : 0 < s₁.o3queue.size := by
    rcases some with hq | hr
    · rwa [few.2.2] at hq
    · rw [few.1] at hr
      exact absurd hr (Nat.lt_irrefl 0)
  have large : cfg.o3robMaxSize - 3 ≤ s₁.o3rob.size := by
    have head := RingBuffer.slot_zero inCall.consistent.rings.queueHead
    rw [← head] at full
    cases hx : (s₁.o3queue.get 0).state with
    | ready =>
      exact full hq hx ((inCall.pending.ready 0 hq hx).resolve_left (noEvent _))
    | notInQueue =>
      exfalso
      rcases wait 0 (size ▸ hq) with old | ⟨-, load, -⟩
      · obtain ⟨c, hc, -⟩ := sent 0 (size ▸ hq) (old ▸ hx)
        exact noCall c hc
      · rw [load] at hx
        cases hx
    | beingLoaded =>
      obtain ⟨c, hc, -⟩ := inCall.pending.loading 0 hq hx
      exact absurd hc (noCall c)
    | invalid => exact absurd hx (inCall.pending.valid 0 hq)
  have room := cfg.robSize
  have hr : 0 < s₁.o3rob.size := by omega
  rw [← rob, ← events] at left
  rcases left hr (all 0 hr).1 with hm | he | small
  · exact noEvent _ hm
  · exact (all 0 hr).2.ne he
  · have width := few.2.1
    rcases fit (by omega) (by omega) with inorder | empty
    · rw [(idle 0 hr).1] at inorder
      cases inorder
    · omega

theorem InCall.phases (h : InCall cfg t s) :
    Pending cfg t (phases cfg t s) ∧ Leftover cfg (phases cfg t s) := by
  have executed := h.fetch.issue.execute
  have hs := executed.consistent.rings.robSize.le
  exact commit_pending (executed.pending.wake hs) (wake_consistent executed.consistent)
    (executed.named.wake cfg hs)

theorem Pending.skip (h : Pending cfg t s) : Pending cfg t (skip cfg t s) := by
  unfold O3Core.skip
  split
  · exact ⟨fun i hi => absurd hi (Nat.not_lt_zero i), fun i hi => absurd hi (Nat.not_lt_zero i),
      fun i hi => absurd hi (Nat.not_lt_zero i), h.issued, h.live⟩
  · exact h

theorem taken_inCall (hc : Consistent cfg s) (named : Named (fun _ => False) s.now s)
    (h : Pending cfg s.now s) (ht : s.Timely (.processEvent t)) :
    InCall cfg t (skip cfg t (s.take t)) := by
  have now := named.ahead t ht.1
  have taken : Consistent cfg (s.take t) :=
    hc.of_same rfl rfl rfl rfl rfl rfl
  have due := (named.later now ht.2).take
  refine ⟨skip_consistent taken, ?_, (h.later now).take.skip⟩
  exact due.of_same skip_rob (by rw [skip_events]) (by rw [skip_events]; exact due.ahead)

theorem dispatch_pending (hc : Consistent cfg s) (named : Named (fun _ => False) s.now s)
    (h : Pending cfg s.now s) (left : Leftover cfg s) (ht : s.Timely (.processEvent t)) :
    Pending cfg t (dispatch cfg s t).1 ∧ Leftover cfg (dispatch cfg s t).1 := by
  have inCall := taken_inCall hc named h ht
  unfold dispatch processEvent
  dsimp only
  split
  · refine ⟨inCall.pending.of_same rfl rfl (Finset.subset_insert _ _)
      (refetched_of_subset fun _ hc => hc), ?_⟩
    intro hs hx
    have again : ((skip cfg t (s.take t)).addEvent t).events = s.events := by
      show insert t (skip cfg t (s.take t)).events = s.events
      rw [skip_events]
      exact Finset.insert_erase ht.1
    have same : ((skip cfg t (s.take t)).addEvent t).o3rob = s.o3rob := skip_rob (s := s.take t)
    rw [same] at hs hx ⊢
    rw [again]
    exact left hs hx
  · exact inCall.phases

theorem dispatch_progress (w : Widths cfg)
    (fit : cfg.maxCommitWidth = 2 → cfg.o3robMaxSize = 5 →
      cfg.mimickInorder = true ∨ cfg.skipAllInstrs = true)
    (hc : Consistent cfg s) (named : Named (fun _ => False) s.now s) (h : Pending cfg s.now s)
    (left : 0 < s.o3rob.size → (s.o3rob.get 0).state = .completed →
      (s.o3rob.get 0).readyTime ∈ s.events ∨
        s.o3rob.size + cfg.maxCommitWidth < cfg.o3robMaxSize ∧ cfg.o3robMaxSize ≠ 4)
    (ht : s.Timely (.processEvent t))
    (some : 0 < (dispatch cfg s t).1.o3queue.size ∨ 0 < (dispatch cfg s t).1.o3rob.size) :
    Alive (dispatch cfg s t).1 := by
  have inCall := taken_inCall hc named h ht
  unfold dispatch processEvent at some ⊢
  dsimp only at some ⊢
  split
  · exact addEvent_alive _ _
  · rename_i hh
    rw [if_neg hh] at some
    refine phases_progress w (fun hw hm => (fit hw hm).imp_right fun skips => ?_) inCall ?_ some
    · unfold skip
      rw [if_pos skips]
      rfl
    · rw [skip_rob, skip_events]
      intro hs hx
      rcases left hs hx with hm | small
      · by_cases he : (s.o3rob.get 0).readyTime = t
        · exact .inr (.inl he)
        · exact .inl (Finset.mem_erase.mpr ⟨he, hm⟩)
      · exact .inr (.inr small)

theorem loaded_pending (h : Pending cfg s.now s) (hc : Consistent cfg s) {n : Nat}
    {call : Call CorePort} (hcall : s.outstanding[n]? = some call) {u : Nat} :
    Pending cfg s.now (loaded cfg (s.answered n) u call.lqe.address) := by
  have hs := hc.rings.queueSize
  have arrives : Arrives cfg u call.lqe.address (s.answered n) _ :=
    loaded_arrives (s := s.answered n) hs u
  have get : ∀ j < s.o3queue.size,
      (loaded cfg (s.answered n) u call.lqe.address).o3queue.get j = s.o3queue.get j ∨
        ((loaded cfg (s.answered n) u call.lqe.address).o3queue.get j).state = .ready ∧
        ((loaded cfg (s.answered n) u call.lqe.address).o3queue.get j).readyTime = u := by
    intro j hj
    rw [arrives.get j hj]
    unfold O3Queue.arrive
    split
    · exact .inr ⟨rfl, rfl⟩
    · exact .inl rfl
  constructor
  · exact Loading.loaded h.loading hs hcall u
  · intro i hi hx
    rw [arrives.size] at hi
    rw [loaded_events]
    rcases get i hi with same | ⟨-, time⟩
    · rw [same] at hx ⊢
      exact (h.ready i hi hx).imp_left Finset.mem_insert_of_mem
    · exact .inl (Finset.mem_insert.mpr (.inl time))
  · intro i hi
    rw [arrives.size] at hi
    rcases get i hi with same | ⟨ready, -⟩
    · exact fun hx => h.valid i hi (same ▸ hx)
    · exact fun hx => absurd (ready.symm.trans hx) (by decide)
  · rw [loaded_rob, loaded_events]
    exact fun i hi hx => (h.issued i hi hx).imp_left fun hm => Finset.mem_insert_of_mem hm
  · rw [loaded_rob]
    exact h.live

theorem Leftover.of_same (h : Leftover cfg s) (rob : s'.o3rob = s.o3rob)
    (events : s.events ⊆ s'.events) : Leftover cfg s' := by
  unfold Leftover
  rw [rob]
  exact fun hs hx => (h hs hx).imp_left fun hm => events hm

theorem complete_pending (h : Pending cfg s.now s) (left : Leftover cfg s) (hc : Consistent cfg s)
    {n i u r : Nat} {call : Call CorePort} (hcall : s.outstanding[n]? = some call)
    (isa : isAccess call = true) (hi : i < s.o3rob.size) :
    Pending cfg s.now (((s.answered n).served u).complete (s.o3rob.slot i) r) ∧
      Leftover cfg (((s.answered n).served u).complete (s.o3rob.slot i) r) := by
  have hs := hc.rings.robSize.le
  have out : Refetched s (((s.answered n).served u).complete (s.o3rob.slot i) r) :=
    answered_refetched hcall isa
  have more : s.events ⊆ (((s.answered n).served u).complete (s.o3rob.slot i) r).events :=
    (Finset.subset_insert u _).trans (Finset.subset_insert r _)
  have get := fun j (hj : j < s.o3rob.size) => writeRob_get hs hi hj
    { s.o3rob.get i with state := .completed, readyTime := r }
  have written : Pending cfg s.now (s.writeRob (s.o3rob.slot i)
      { s.o3rob.get i with state := .completed, readyTime := r }) :=
    h.write hs hi (fun hx => by cases hx) fun hx => by cases hx
  refine ⟨written.of_same rfl rfl more out, fun hpos hx => ?_⟩
  have new : (((s.answered n).served u).complete (s.o3rob.slot i) r).o3rob.get 0 = _ := get 0 hpos
  rw [new] at hx ⊢
  split at hx
  · rw [if_pos ‹_›]
    exact .inl (Finset.mem_insert_self _ _)
  · rw [if_neg ‹_›]
    exact (left hpos hx).imp_left fun hm => more hm

theorem answer_pending (h : Pending cfg s.now s) (left : Leftover cfg s) (hc : Consistent cfg s)
    {n time : Nat} {type : EventType} (hs : answer cfg s n type time = .ok s') :
    Pending cfg s.now s' ∧ Leftover cfg s' := by
  obtain ⟨call, hcall, ⟨isf, hs⟩ | ⟨isa, hs⟩⟩ := answer_cases hs
  · rcases addReqEvent_cases hs with ⟨nacks, delay, rfl⟩ | rfl
    · exact ⟨h.of_same rfl rfl (Finset.Subset.refl _) (resent_refetched hcall),
        left.of_same rfl (Finset.Subset.refl _)⟩
    · refine ⟨loaded_pending h hc hcall, left.of_same loaded_rob ?_⟩
      rw [loaded_events]
      exact Finset.subset_insert _ _
  · rcases addRepEvent_cases hs with ⟨nacks, kind, delay, rfl⟩ | ⟨r, -, rfl⟩
    · have out : Refetched s (s.answered n) := answered_refetched hcall isa
      have same : Pending cfg s.now (s.answered n) := h.of_same rfl rfl (Finset.Subset.refl _) out
      exact ⟨same.of_same rfl rfl (Finset.Subset.refl _)
        (refetched_of_subset (List.subset_append_left _ _)),
        left.of_same rfl (Finset.Subset.refl _)⟩
    · obtain ⟨i, hi, -, entry, -⟩ := hc.awaits.entry call
        (List.mem_filter.mpr ⟨List.mem_of_getElem? hcall, isa⟩)
      rw [entry, Int.toNat_natCast]
      exact complete_pending h left hc hcall isa hi

theorem addInstruction_pending (h : Pending cfg s.now s) (left : Leftover cfg s)
    (hc : Consistent cfg s) (x : Pthread.PtsInstr) :
    (addInstruction cfg s x).1.now = s.now ∧ Pending cfg s.now (addInstruction cfg s x).1 ∧
      Leftover cfg (addInstruction cfg s x).1 := by
  have woken : (s.wakeUp x.currTime).now = s.now ∧ (s.wakeUp x.currTime).o3queue = s.o3queue ∧
      (s.wakeUp x.currTime).o3rob = s.o3rob ∧
      (s.wakeUp x.currTime).outstanding = s.outstanding ∧
      s.events ⊆ (s.wakeUp x.currTime).events := by
    unfold wakeUp
    split
    · exact ⟨rfl, rfl, rfl, rfl, Finset.subset_insert _ _⟩
    · exact ⟨rfl, rfl, rfl, rfl, Finset.Subset.refl _⟩
  obtain ⟨now, queue, rob, out, more⟩ := woken
  unfold addInstruction
  dsimp only
  generalize s.wakeUp x.currTime = s₁ at *
  have same : Pending cfg s.now s₁ :=
    h.of_same queue rob more (refetched_of_subset (out ▸ List.Subset.refl _))
  split
  · exact ⟨now, same.of_same rfl rfl (Finset.Subset.refl _) (refetched_of_subset fun _ hc => hc),
      left.of_same rob more⟩
  · rename_i room
    refine ⟨now, ?_, left.of_same rob more⟩
    have free : s₁.o3queue.size < s₁.o3queue.cap := by
      rw [queue, hc.rings.queueCap, ← queue]
      exact Nat.not_le.mp room
    have back : ∀ e i, i < (s₁.o3queue.push e).size →
        i < s₁.o3queue.size ∧ (s₁.o3queue.push e).get i = s₁.o3queue.get i ∨
          (s₁.o3queue.push e).get i = e := by
      intro e i hi
      rcases Nat.lt_succ_iff_lt_or_eq.mp hi with hi | rfl
      · exact .inl ⟨hi, RingBuffer.get_push_lt free hi⟩
      · exact .inr (RingBuffer.get_push_size free)
    constructor
    · intro i hi hx
      rcases back _ i hi with ⟨hi, old⟩ | new
      · rw [old] at hx ⊢
        exact same.loading i hi hx
      · rw [new] at hx
        cases hx
    · intro i hi hx
      rcases back _ i hi with ⟨hi, old⟩ | new
      · rw [old] at hx ⊢
        exact same.ready i hi hx
      · rw [new] at hx
        cases hx
    · intro i hi
      rcases back _ i hi with ⟨hi, old⟩ | new
      · rw [old]
        exact same.valid i hi
      · rw [new]
        exact fun hx => by cases hx
    · exact same.issued
    · exact same.live

theorem step_pending (h : Pending cfg s.now s) (left : Leftover cfg s) (hc : Consistent cfg s)
    (named : Named (fun _ => False) s.now s) {e : CoreEvent} (ht : s.Timely e)
    (hs : step cfg s e = .ok s') : Pending cfg s'.now s' ∧ Leftover cfg s' := by
  cases e with
  | addInstruction x =>
    cases hs
    obtain ⟨now, pending, left⟩ := addInstruction_pending h left hc x
    exact ⟨now.symm ▸ pending, left⟩
  | setActive isActive =>
    cases hs
    exact ⟨h.of_same rfl rfl (Finset.Subset.refl _) (refetched_of_subset fun _ hc => hc),
      left.of_same rfl (Finset.Subset.refl _)⟩
  | processEvent t =>
    cases hs
    have now : (dispatch cfg s t).1.now = t := dispatch_now hc
    rw [now]
    exact dispatch_pending hc named h left ht
  | answer n type time =>
    obtain ⟨now, -⟩ := answer_named named hc ht hs
    rw [now]
    exact answer_pending h left hc hs
  | migrate isMigrateReady =>
    cases hs
    exact ⟨h.of_same rfl rfl (Finset.Subset.refl _) (refetched_of_subset fun _ hc => hc),
      left.of_same rfl (Finset.Subset.refl _)⟩
  | advance t =>
    cases hs
    exact ⟨(h.later ht.1).of_same rfl rfl (Finset.Subset.refl _)
      (refetched_of_subset fun _ hc => hc), left.of_same rfl (Finset.Subset.refl _)⟩

theorem timely_pending {ok : O3Core → CoreEvent → Prop} (h : TimelyRun cfg ok s) :
    Pending cfg s.now s ∧ Leftover cfg s := by
  induction h with
  | init =>
    exact ⟨⟨fun i hi => absurd hi (Nat.not_lt_zero i), fun i hi => absurd hi (Nat.not_lt_zero i),
      fun i hi => absurd hi (Nat.not_lt_zero i), fun i hi => absurd hi (Nat.not_lt_zero i),
      fun i hi => absurd hi (Nat.not_lt_zero i)⟩, fun hs => absurd hs (Nat.lt_irrefl 0)⟩
  | step e hr ht _ hs ih =>
    exact step_pending ih.1 ih.2 (run_consistent hr.run) (timely_named hr) ht hs

end McSim.O3Core
