import McSim.O3Core

/-! The phases of `O3Core::process_event`.
Fetching and the parts of an instruction leave a relation between the state before and after them;
for each loop there is one rule that says what a property has to survive to hold behind the loop. -/

namespace McSim

/-- The line at `a` is there for the entry from `aligned` on, if it was being loaded. -/
def O3Queue.arrive (cfg : O3CoreConfig) (aligned a : Nat) (e : O3Queue) : O3Queue :=
  if e.state = .beingLoaded ∧ a >>> cfg.setLsb = e.instr.ip >>> cfg.setLsb then
    { e with state := .ready, readyTime := aligned }
  else e

theorem O3Queue.arrive_arrive (cfg : O3CoreConfig) (aligned a : Nat) (e : O3Queue) :
    (e.arrive cfg aligned a).arrive cfg aligned a = e.arrive cfg aligned a := by
  unfold arrive
  split
  · exact if_neg fun h => by cases h.1
  · rfl

namespace O3Core

variable {cfg : O3CoreConfig} {s s' s₁ s₂ s₃ : O3Core} {t a i : Nat}

def isFetch (c : Call CorePort) : Bool := c.callee == .tlbl1i || c.callee == .cachel1i

def isAccess (c : Call CorePort) : Bool := c.callee == .tlbl1d || c.callee == .cachel1d

@[simp] theorem skip_rob : (skip cfg t s).o3rob = s.o3rob := by
  unfold skip
  split <;> rfl

@[simp] theorem skip_committed : (skip cfg t s).committed = s.committed := by
  unfold skip
  split <;> rfl

@[simp] theorem skip_events : (skip cfg t s).events = s.events := by
  unfold skip
  split <;> rfl

@[simp] theorem skip_now : (skip cfg t s).now = s.now := by
  unfold skip
  split <;> rfl

@[simp] theorem hungry_take : (skip cfg t (s.take t)).hungry cfg = (skip cfg t s).hungry cfg := by
  unfold skip
  split <;> rfl

structure Fetched (cfg : O3CoreConfig) (s s' : O3Core) : Prop where
  frame : { s' with o3queue := s.o3queue, outstanding := s.outstanding } = s
  calls : ∃ calls, s'.outstanding = s.outstanding ++ calls ∧ ∀ c ∈ calls, isFetch c = true
  head : s'.o3queue.head = s.o3queue.head
  size : s'.o3queue.size = s.o3queue.size
  cap : s'.o3queue.cap = s.o3queue.cap
  entry : ∀ i < s.o3queue.size, s'.o3queue.get i = s.o3queue.get i ∨
    (s.o3queue.get i).state = .notInQueue ∧
      s'.o3queue.get i = { s.o3queue.get i with state := .beingLoaded } ∧
      ∃ c ∈ s'.outstanding, isFetch c = true ∧
        c.lqe.address >>> cfg.setLsb = (s.o3queue.get i).instr.ip >>> cfg.setLsb

theorem Fetched.refl (s : O3Core) : Fetched cfg s s where
  frame := rfl
  calls := ⟨[], by simp⟩
  head := rfl
  size := rfl
  cap := rfl
  entry _ _ := .inl rfl

theorem Fetched.same {α : Type} (h : Fetched cfg s s') (f : O3Core → α)
    (hf : ∀ s q o, f { s with o3queue := q, outstanding := o } = f s) : f s' = f s := by
  have frame := congrArg f h.frame
  rwa [hf] at frame

theorem Fetched.load (h : Fetched cfg s s₁) (hs : s.o3queue.size ≤ s.o3queue.cap) {i : Nat}
    (hi : i < s.o3queue.size) (calls : List (Call CorePort))
    (hcalls : ∀ c ∈ calls, isFetch c = true)
    (hn : (s₁.o3queue.get i).state = .notInQueue)
    (hline : ∃ c ∈ s₁.outstanding ++ calls, isFetch c = true ∧
      c.lqe.address >>> cfg.setLsb = (s₁.o3queue.get i).instr.ip >>> cfg.setLsb) :
    Fetched cfg s { s₁ with
      o3queue := s₁.o3queue.write (s₁.o3queue.slot i)
        { s₁.o3queue.get i with state := .beingLoaded }
      outstanding := s₁.outstanding ++ calls } where
  frame := h.frame
  calls := by
    obtain ⟨old, ho, hold⟩ := h.calls
    refine ⟨old ++ calls, by rw [ho, List.append_assoc], fun c hc => ?_⟩
    exact (List.mem_append.mp hc).elim (hold c) (hcalls c)
  head := h.head
  size := h.size
  cap := h.cap
  entry := by
    intro j hj
    have bound : ∀ n < s.o3queue.size, n < s₁.o3queue.cap := fun n hn =>
      h.cap ▸ hn.trans_le hs
    dsimp only
    rw [RingBuffer.get_write_slot (bound i hi) (bound j hj)]
    rcases h.entry j hj with same | ⟨wait, load, c, hc, isf, line⟩
    · by_cases hji : j = i
      · subst hji
        rw [if_pos rfl, ← same]
        exact .inr ⟨hn, rfl, hline⟩
      · rw [if_neg hji]
        exact .inl same
    · by_cases hji : j = i
      · subst hji
        rw [load] at hn
        cases hn
      · rw [if_neg hji]
        exact .inr ⟨wait, load, c, List.mem_append_left _ hc, isf, line⟩

/-- The line a request is out for is that of `addr_to_read`. -/
def Requested (st : O3Core × Nat) : Prop :=
  st.2 ≠ 0 → ∃ c ∈ st.1.outstanding, isFetch c = true ∧ c.lqe.address = st.2

theorem fetchOne_fetched {st : O3Core × Nat} (h : Fetched cfg s st.1) (hr : Requested st)
    (hs : s.o3queue.size ≤ s.o3queue.cap) {i : Nat} (hi : i < s.o3queue.size) :
    Fetched cfg s (fetchOne cfg t st i).1 ∧ Requested (fetchOne cfg t st i) ∧
      ((s.o3queue.get i).state = .notInQueue →
        ∃ c ∈ (fetchOne cfg t st i).1.outstanding, isFetch c = true) := by
  obtain ⟨s₁, line⟩ := st
  unfold fetchOne
  dsimp only
  have lineOf : ∀ n : Nat, (n >>> cfg.setLsb <<< cfg.setLsb) >>> cfg.setLsb = n >>> cfg.setLsb :=
    fun n => Nat.shiftLeft_shiftRight _ _
  split
  · rename_i hn
    refine ⟨h, hr, fun wait => ?_⟩
    rcases h.entry i hi with same | ⟨-, -, c, hc, isf, -⟩
    · exact absurd ((congrArg O3Queue.state same).trans wait) hn
    · exact ⟨c, hc, isf⟩
  · rename_i hn
    have wait : (s₁.o3queue.get i).state = .notInQueue := not_not.mp hn
    have send : ∀ call : Call CorePort, isFetch call = true →
        call.lqe.address = (s₁.o3queue.get i).instr.ip >>> cfg.setLsb <<< cfg.setLsb →
        Fetched cfg s { s₁ with
          o3queue := s₁.o3queue.write (s₁.o3queue.slot i)
            { s₁.o3queue.get i with state := .beingLoaded }
          outstanding := s₁.outstanding ++ [call] } ∧ call ∈ s₁.outstanding ++ [call] := by
      intro call isf ha
      have new : call ∈ s₁.outstanding ++ [call] := List.mem_append_right _ List.mem_cons_self
      refine ⟨h.load hs hi [call] (by simpa using isf) wait ⟨call, new, isf, ?_⟩, new⟩
      rw [ha, lineOf]
    split
    · split
      · refine ⟨(send _ ?_ ?_).1, fun _ => ⟨_, (send _ ?_ ?_).2, ?_, ?_⟩, fun _ =>
          ⟨_, (send _ ?_ ?_).2, ?_⟩⟩ <;> rfl
      · refine ⟨(send _ ?_ ?_).1, fun _ => ⟨_, (send _ ?_ ?_).2, ?_, ?_⟩, fun _ =>
          ⟨_, (send _ ?_ ?_).2, ?_⟩⟩ <;> rfl
    · rename_i hline
      obtain ⟨c, hc, isf, ha⟩ := hr hline
      split
      · rename_i joins
        have sent := h.load hs hi [] (by simp) wait
          ⟨c, by simpa using hc, isf, by rw [ha]; exact joins⟩
        rw [List.append_nil] at sent
        exact ⟨sent, hr, fun _ => ⟨c, hc, isf⟩⟩
      · exact ⟨h, hr, fun _ => ⟨c, hc, isf⟩⟩

theorem fetchLoop_fetched (hs : s.o3queue.size ≤ s.o3queue.cap) (is : List Nat)
    (his : ∀ i ∈ is, i < s.o3queue.size) {p : O3Core × Nat} (h : Fetched cfg s p.1)
    (hr : Requested p) :
    Fetched cfg s (is.foldl (fetchOne cfg t) p).1 ∧
      (∃ calls, (is.foldl (fetchOne cfg t) p).1.outstanding = p.1.outstanding ++ calls) ∧
      ∀ i ∈ is, (s.o3queue.get i).state = .notInQueue →
        ∃ c ∈ (is.foldl (fetchOne cfg t) p).1.outstanding, isFetch c = true := by
  induction is generalizing p with
  | nil => exact ⟨h, ⟨[], by simp⟩, by simp⟩
  | cons i is ih =>
    have hi := his i List.mem_cons_self
    obtain ⟨h₁, hr₁, hw⟩ := fetchOne_fetched (t := t) h hr hs hi
    obtain ⟨again, -, -⟩ := fetchOne_fetched (t := t) (Fetched.refl p.1) hr
      (h.cap ▸ h.size ▸ hs) (h.size ▸ hi)
    obtain ⟨new, hnew, -⟩ := again.calls
    obtain ⟨last, ⟨calls, hcalls⟩, rest⟩ :=
      ih (fun j hj => his j (List.mem_cons_of_mem _ hj)) h₁ hr₁
    rw [List.foldl_cons]
    refine ⟨last, ⟨new ++ calls, by rw [hcalls, hnew, List.append_assoc]⟩, fun j hj wait => ?_⟩
    rcases List.mem_cons.mp hj with rfl | hj
    · obtain ⟨c, hc, isf⟩ := hw wait
      exact ⟨c, hcalls ▸ List.mem_append_left _ hc, isf⟩
    · exact rest j hj wait

theorem fetch_fetched (hs : s.o3queue.size ≤ s.o3queue.cap) :
    Fetched cfg s (fetch cfg t s) ∧ ∀ i < s.o3queue.size, (s.o3queue.get i).state = .notInQueue →
      ∃ c ∈ (fetch cfg t s).outstanding, isFetch c = true := by
  obtain ⟨h, -, hw⟩ := fetchLoop_fetched (t := t) hs (List.range s.o3queue.size)
    (fun i hi => List.mem_range.mp hi) (p := (s, 0)) (Fetched.refl s) (fun h => absurd rfl h)
  exact ⟨h, fun i hi => hw i (List.mem_range.mpr hi)⟩

structure Grown (s s' : O3Core) : Prop where
  frame : { s' with o3rob := s.o3rob } = s
  head : s'.o3rob.head = s.o3rob.head
  cap : s'.o3rob.cap = s.o3rob.cap
  size : s.o3rob.size ≤ s'.o3rob.size
  old : ∀ i < s.o3rob.size, s'.o3rob.get i = s.o3rob.get i

def newEntry (cfg : O3CoreConfig) (t : Nat) (x : O3Instr) (d : Deps) (n k : Nat)
    (memDep instrDep : Option Nat) : O3Rob :=
  { state := .issued, readyTime := t + cfg.processInterval, ip := x.ip, memaddr := x.addr k
    isread := k < 2, branchMiss := d.branchMiss, memDep, instrDep, branchDep := d.branchDep
    type := x.type, rr0 := d.rr0, rr1 := d.rr1, rr2 := d.rr2, rr3 := d.rr3
    rw0 := x.rw0, rw1 := x.rw1, rw2 := x.rw2, rw3 := x.rw3, instr := x, serial := n, part := k }

theorem scratch_get {x : O3Instr} (h : s.o3rob.size < s.o3rob.cap) {i : Nat}
    (hi : i < s.o3rob.size) :
    (scratch cfg t x s).o3rob.get i = s.o3rob.get i := by
  show (s.o3rob.write (s.o3rob.slot s.o3rob.size) _).get i = s.o3rob.get i
  rw [RingBuffer.get_write_slot h (hi.trans h), if_neg hi.ne]

theorem scratch_grown {x : O3Instr} (h : s.o3rob.size < s.o3rob.cap) :
    Grown s (scratch cfg t x s) where
  frame := rfl
  head := rfl
  cap := rfl
  size := le_rfl
  old _ hi := scratch_get h hi

theorem fill_scratch (x : O3Instr) (d : Deps) (k : Nat) (memDep instrDep : Option Nat) :
    ((scratch cfg t x s).fill x d k (x.addr k) memDep instrDep).o3rob =
      (scratch cfg t x s).o3rob.push (newEntry cfg t x d s.entered.length k memDep instrDep) := by
  have written : (scratch cfg t x s).o3rob.slots ((scratch cfg t x s).o3rob.slot
      (scratch cfg t x s).o3rob.size) = _ := Function.update_self _ _ _
  show (scratch cfg t x s).o3rob.push _ = _
  congr 1
  dsimp only
  rw [written]
  rfl

theorem Grown.refl (s : O3Core) : Grown s s := ⟨rfl, rfl, rfl, le_rfl, fun _ _ => rfl⟩

theorem Grown.trans (h : Grown s₁ s₂) (h' : Grown s₂ s₃) : Grown s₁ s₃ where
  frame := (congrArg (fun s : O3Core => { s with o3rob := s₁.o3rob }) h'.frame).trans h.frame
  head := h'.head.trans h.head
  cap := h'.cap.trans h.cap
  size := h.size.trans h'.size
  old i hi := (h'.old i (hi.trans_le h.size)).trans (h.old i hi)

theorem Grown.memDep (h : Grown s s') (hs : s'.o3rob.size = s.o3rob.size) (a : Nat) :
    s'.memDep t a = s.memDep t a := RingBuffer.youngest_congr h.head hs h.cap h.old _

theorem Grown.same {α : Type} (h : Grown s s') (f : O3Core → α)
    (hf : ∀ s r, f { s with o3rob := r } = f s) : f s' = f s := by
  have frame := congrArg f h.frame
  rwa [hf] at frame

theorem Grown.entered (h : Grown s s') : s'.entered = s.entered :=
  h.same O3Core.entered fun _ _ => rfl

theorem Grown.slot (h : Grown s s') (i : Nat) : s'.o3rob.slot i = s.o3rob.slot i := by
  rw [RingBuffer.slot, RingBuffer.slot, h.head, h.cap]

theorem Grown.list (h : Grown s s') (hs : s'.o3rob.size = s.o3rob.size) :
    s'.o3rob.toList = s.o3rob.toList := RingBuffer.toList_congr hs h.old

structure Pushed (cfg : O3CoreConfig) (t : Nat) (x : O3Instr) (d : Deps) (k : Nat)
    (instrDep : Option Nat) (s s' : O3Core) : Prop extends Grown s s' where
  one : s'.o3rob.size = s.o3rob.size + 1
  new : s'.o3rob.get s.o3rob.size =
    newEntry cfg t x d s.entered.length k (if k < 3 then s.memDep t (x.addr k) else none) instrDep
  list : s'.o3rob.toList = s.o3rob.toList ++ [s'.o3rob.get s.o3rob.size]

theorem fill_pushed {x : O3Instr} {d : Deps} {k : Nat} {memDep instrDep : Option Nat}
    (h : s.o3rob.size < s.o3rob.cap)
    (hm : memDep = if k < 3 then s.memDep t (x.addr k) else none) :
    Pushed cfg t x d k instrDep s ((scratch cfg t x s).fill x d k (x.addr k) memDep instrDep) := by
  have ring : ((scratch cfg t x s).fill x d k (x.addr k) memDep instrDep).o3rob = _ :=
    fill_scratch x d k memDep instrDep
  have room : (scratch cfg t x s).o3rob.size < (scratch cfg t x s).o3rob.cap := h
  have last : ((scratch cfg t x s).fill x d k (x.addr k) memDep instrDep).o3rob.get s.o3rob.size =
      newEntry cfg t x d s.entered.length k memDep instrDep := by
    rw [ring]
    exact RingBuffer.get_push_size room
  constructor
  · constructor
    · rfl
    · rfl
    · rfl
    · exact Nat.le_succ _
    · intro i hi
      rw [ring, RingBuffer.get_push_lt room hi, scratch_get h hi]
  · rfl
  · rw [last, hm]
  · rw [last, ring, RingBuffer.toList_push room]
    congr 1
    exact RingBuffer.toList_write_free h

theorem issuePart_pushed {x : O3Instr} {d : Deps} {dep : Option Nat} {k : Nat}
    (h : s.o3rob.size < s.o3rob.cap) (hk : x.addr k ≠ 0) (h3 : k < 3) :
    Pushed cfg t x d k dep s (issuePart cfg t x d (s, dep) k).1 ∧
      (issuePart cfg t x d (s, dep) k).2 = some (s.o3rob.slot s.o3rob.size) := by
  unfold issuePart
  dsimp only
  rw [if_neg hk]
  refine ⟨fill_pushed h ?_, rfl⟩
  rw [if_pos h3]
  exact (scratch_grown h).memDep rfl _

theorem Pushed.after {x : O3Instr} {d : Deps} {dep : Option Nat} {k : Nat} (h : Grown s s₁)
    (hs : s₁.o3rob.size = s.o3rob.size) (hp : Pushed cfg t x d k dep s₁ s₂) :
    Pushed cfg t x d k dep s s₂ where
  toGrown := h.trans hp.toGrown
  one := by rw [hp.one, hs]
  new := by
    have new := hp.new
    rw [hs, h.memDep hs, h.entered] at new
    exact new
  list := by
    have list := hp.list
    rw [h.list hs, hs] at list
    exact list

inductive Parts (cfg : O3CoreConfig) (t : Nat) (x : O3Instr) (d : Deps) :
    List Nat → Option Nat → O3Core → O3Core → Prop
  | none {dep s s'} : Grown s s' → s'.o3rob.size = s.o3rob.size → Parts cfg t x d [] dep s s'
  | push {k ks dep s s₁ s'} : Pushed cfg t x d k dep s s₁ →
      Parts cfg t x d ks (some (s.o3rob.slot s.o3rob.size)) s₁ s' →
      Parts cfg t x d (k :: ks) dep s s'

theorem Parts.after {x : O3Instr} {d : Deps} {dep : Option Nat} {ks : List Nat} (h : Grown s s₁)
    (hs : s₁.o3rob.size = s.o3rob.size) (hp : Parts cfg t x d ks dep s₁ s₂) :
    Parts cfg t x d ks dep s s₂ := by
  cases hp with
  | none hg he => exact .none (h.trans hg) (he.trans hs)
  | push hp rest =>
    refine .push (hp.after h hs) ?_
    have slot : s₁.o3rob.slot s₁.o3rob.size = s.o3rob.slot s.o3rob.size := by
      rw [RingBuffer.slot, RingBuffer.slot, h.head, h.cap, hs]
    exact slot ▸ rest

theorem issueParts_parts {x : O3Instr} {d : Deps} (ks : List Nat) (h3 : ∀ k ∈ ks, k < 3)
    {dep : Option Nat} (h : s.o3rob.size + ks.length < s.o3rob.cap)
    (hg : Grown (ks.foldl (issuePart cfg t x d) (s, dep)).1 s')
    (hs : s'.o3rob.size = (ks.foldl (issuePart cfg t x d) (s, dep)).1.o3rob.size) :
    Parts cfg t x d (ks.filter (x.addr · ≠ 0)) dep s s' := by
  induction ks generalizing s dep with
  | nil => exact .none hg hs
  | cons k ks ih =>
    have room : s.o3rob.size < s.o3rob.cap := (Nat.le_add_right _ _).trans_lt h
    have h3' : ∀ j ∈ ks, j < 3 := fun j hj => h3 j (List.mem_cons_of_mem _ hj)
    rw [List.length_cons] at h
    rw [List.foldl_cons] at hg hs
    by_cases hk : x.addr k = 0
    · rw [List.filter_cons_of_neg (by simpa using hk)]
      have skip : issuePart cfg t x d (s, dep) k = (scratch cfg t x s, dep) := if_pos hk
      rw [skip] at hg hs
      refine (ih h3' ?_ hg hs).after (scratch_grown room) rfl
      exact (Nat.add_le_add_left (Nat.le_succ _) _).trans_lt h
    · rw [List.filter_cons_of_pos (by simpa using hk)]
      have part : Pushed cfg t x d k dep s (issuePart cfg t x d (s, dep) k).1 ∧ _ :=
        issuePart_pushed room hk (h3 k List.mem_cons_self)
      obtain ⟨pushed, dep'⟩ := part
      refine .push pushed ?_
      rw [← dep']
      refine ih h3' ?_ hg hs
      rw [pushed.one, pushed.cap]
      omega

theorem Parts.grown {x : O3Instr} {d : Deps} {dep : Option Nat} {ks : List Nat}
    (h : Parts cfg t x d ks dep s s') : Grown s s' := by
  induction h with
  | none hg _ => exact hg
  | push hp _ ih => exact hp.toGrown.trans ih

theorem Parts.size {x : O3Instr} {d : Deps} {dep : Option Nat} {ks : List Nat}
    (h : Parts cfg t x d ks dep s s') : s'.o3rob.size = s.o3rob.size + ks.length := by
  induction h with
  | none _ hs => exact hs
  | push hp _ ih =>
    rw [ih, hp.one, List.length_cons]
    omega

def tag (e : O3Rob) : Nat × Nat := (e.serial, e.part)

theorem Parts.list {x : O3Instr} {d : Deps} {dep : Option Nat} {ks : List Nat}
    (h : Parts cfg t x d ks dep s s') : ∃ new, s'.o3rob.toList = s.o3rob.toList ++ new ∧
      new.map tag = ks.map (fun k => (s.entered.length, k)) ∧
      ∀ e ∈ new, ∃ k memDep instrDep, e = newEntry cfg t x d s.entered.length k memDep
        instrDep := by
  induction h with
  | none hg hs => exact ⟨[], by rw [hg.list hs, List.append_nil], rfl, by simp⟩
  | @push k ks dep s s₁ s' hp _ ih =>
    obtain ⟨new, hl, htag, hnew⟩ := ih
    have entered := hp.toGrown.entered
    refine ⟨s₁.o3rob.get s.o3rob.size :: new, ?_, ?_, ?_⟩
    · rw [hl, hp.list, List.append_assoc, List.singleton_append]
    · rw [List.map_cons, List.map_cons, htag, entered, hp.new]
      rfl
    · intro e he
      rcases List.mem_cons.mp he with rfl | he
      · exact ⟨k, _, dep, hp.new⟩
      · obtain ⟨j, m, i, rfl⟩ := hnew e he
        exact ⟨j, m, i, by rw [entered]⟩

/-- Which entries an instruction gets: one for each access, or one for none. -/
def parts (x : O3Instr) : List Nat := if x.noMem then [3] else [0, 1, 2].filter (x.addr · ≠ 0)

theorem noMem_addr {x : O3Instr} (h : x.noMem = true) : ∀ k ∈ [0, 1, 2], x.addr k = 0 := by
  simp only [O3Instr.noMem, Bool.and_eq_true, beq_iff_eq] at h
  intro k hk
  simp only [List.mem_cons, List.not_mem_nil, or_false] at hk
  rcases hk with rfl | rfl | rfl
  · exact h.1.1
  · exact h.1.2
  · exact h.2

theorem parts_length (x : O3Instr) :
    (parts x).length = max 1 ([x.raddr, x.raddr2, x.waddr].filter (· ≠ 0)).length := by
  have same : ([x.raddr, x.raddr2, x.waddr].filter (· ≠ 0)).length =
      ([0, 1, 2].filter (x.addr · ≠ 0)).length := by
    have : [x.raddr, x.raddr2, x.waddr] = [0, 1, 2].map x.addr := rfl
    rw [this, List.filter_map, List.length_map]
    rfl
  rw [same]
  unfold parts
  split
  · rename_i h
    rw [List.filter_eq_nil_iff.mpr fun k hk => by simpa using noMem_addr h k hk]
    rfl
  · rename_i h
    have some : ∃ k ∈ [0, 1, 2], x.addr k ≠ 0 := by
      by_contra hn
      push Not at hn
      refine h ?_
      simp only [O3Instr.noMem, Bool.and_eq_true, beq_iff_eq]
      exact ⟨⟨hn 0 (by simp), hn 1 (by simp)⟩, hn 2 (by simp)⟩
    obtain ⟨k, hk, ha⟩ := some
    have : 0 < ([0, 1, 2].filter (x.addr · ≠ 0)).length :=
      List.length_pos_of_mem (List.mem_filter.mpr ⟨hk, by simpa using ha⟩)
    omega

theorem parts_le (x : O3Instr) : (parts x).length ≤ 3 := by
  unfold parts
  split
  · exact Nat.le_of_ble_eq_true rfl
  · exact List.length_filter_le _ _

theorem issueNoMem_parts {x : O3Instr} {d : Deps} (h : s.o3rob.size + 3 < s.o3rob.cap) :
    Parts cfg t x d (parts x) none s
      (issueNoMem cfg t x d ([0, 1, 2].foldl (issuePart cfg t x d) (s, none))) := by
  have room : s.o3rob.size < s.o3rob.cap := by omega
  by_cases hm : x.noMem = true
  · have skip : ∀ s₁ k, k ∈ [0, 1, 2] →
        issuePart cfg t x d (s₁, none) k = (scratch cfg t x s₁, none) :=
      fun _ k hk => if_pos (noMem_addr hm k hk)
    have folded : [0, 1, 2].foldl (issuePart cfg t x d) (s, none) =
        (scratch cfg t x (scratch cfg t x (scratch cfg t x s)), none) := by
      simp only [List.foldl_cons, List.foldl_nil]
      rw [skip s 0 (by simp), skip _ 1 (by simp), skip _ 2 (by simp)]
    have grown : Grown s (scratch cfg t x (scratch cfg t x (scratch cfg t x s))) :=
      ((scratch_grown room).trans (scratch_grown room)).trans (scratch_grown room)
    unfold issueNoMem parts
    rw [folded]
    dsimp only
    rw [if_pos hm, if_pos hm]
    have last : Pushed cfg t x d 3 none (scratch cfg t x (scratch cfg t x (scratch cfg t x s))) _ :=
      fill_pushed (k := 3) room rfl
    exact .push (last.after grown rfl) (.none (Grown.refl _) rfl)
  · have h3 : ∀ k ∈ [0, 1, 2], k < 3 := by decide
    have folded : Parts cfg t x d _ none s
        ([0, 1, 2].foldl (issuePart cfg t x d) (s, none)).1 :=
      issueParts_parts [0, 1, 2] h3 h (Grown.refl _) rfl
    have size := folded.size
    have few : ([0, 1, 2].filter (x.addr · ≠ 0)).length ≤ 3 := List.length_filter_le _ _
    have cap := folded.grown.cap
    unfold issueNoMem parts
    dsimp only
    rw [if_neg hm, if_neg hm]
    refine issueParts_parts [0, 1, 2] h3 h (scratch_grown ?_) rfl
    rw [size, cap]
    omega

theorem issueInstr_parts (cfg : O3CoreConfig) (t : Nat) (x : O3Instr)
    (h : s.o3rob.size + 3 < s.o3rob.cap) :
    ∃ s₁, Parts cfg t x (s.deps t x) (parts x) none (predict cfg t x s) s₁ ∧
      issueInstr cfg t x s = s₁.dequeue x :=
  ⟨_, issueNoMem_parts (s := predict cfg t x s) h, rfl⟩

theorem issueLoop_keeps {P : O3Core → Prop}
    (step : ∀ s, P s → 0 < s.o3queue.size → s.o3rob.size < cfg.o3robMaxSize - 3 →
      (s.o3queue.slots s.o3queue.head).state = .ready →
      (s.o3queue.slots s.o3queue.head).readyTime ≤ t →
      P (issueInstr cfg t (s.o3queue.slots s.o3queue.head).instr s))
    (n : Nat) (h : P s) : P (issueLoop cfg t n s) := by
  induction n generalizing s with
  | zero => exact h
  | succ n ih =>
    unfold issueLoop
    split
    · rename_i room
      refine ih ?_
      unfold issueOne
      dsimp only
      split
      · rename_i ready
        exact step s h room.1 room.2 ready.1 ready.2
      · exact h
    · exact h

structure SamePlace (s s' : O3Core) : Prop where
  head : s'.o3rob.head = s.o3rob.head
  size : s'.o3rob.size = s.o3rob.size
  cap : s'.o3rob.cap = s.o3rob.cap

theorem SamePlace.refl (s : O3Core) : SamePlace s s := ⟨rfl, rfl, rfl⟩

theorem SamePlace.trans (h : SamePlace s₁ s₂) (h' : SamePlace s₂ s₃) : SamePlace s₁ s₃ :=
  ⟨h'.head.trans h.head, h'.size.trans h.size, h'.cap.trans h.cap⟩

theorem SamePlace.slot (h : SamePlace s s') (i : Nat) : s'.o3rob.slot i = s.o3rob.slot i := by
  rw [RingBuffer.slot, RingBuffer.slot, h.head, h.cap]

theorem start_samePlace (t i : Nat) (s : O3Core) (u : Units) :
    SamePlace s (start cfg t i s u).1 := by
  unfold start
  dsimp only
  split
  · exact ⟨rfl, rfl, rfl⟩
  · split
    · unfold access
      dsimp only
      split <;> exact ⟨rfl, rfl, rfl⟩
    · exact SamePlace.refl s

theorem executeOne_samePlace (t i : Nat) (s : O3Core) (u : Units) :
    SamePlace s (executeOne cfg t i s u).1.1 := by
  unfold executeOne
  dsimp only
  split
  · split
    · split <;> exact ⟨rfl, rfl, rfl⟩
    · split
      · split <;> exact ⟨rfl, rfl, rfl⟩
      · split
        · exact start_samePlace t i s u
        · split <;> exact ⟨rfl, rfl, rfl⟩
  · split <;> exact ⟨rfl, rfl, rfl⟩

/-- Entry `i` may start at `t`: it waits for nothing, or it is the oldest one. -/
structure Startable (t i : Nat) (s : O3Core) : Prop where
  lt : i < s.o3rob.size
  issued : (s.o3rob.get i).state = .issued
  ready : (s.o3rob.get i).readyTime ≤ t
  free : i = 0 ∨ (s.o3rob.get i).free = true

theorem executeLoop_keeps {P : O3Core → Prop}
    (retry : ∀ s, P s → P (retry cfg t s))
    (complete : ∀ s i m r, P s → Startable t i s → t ≤ r → i = 0 ∨ (s.o3rob.get i).memaddr = 0 →
      P (({ s with isMigrateReady := m }).complete (s.o3rob.slot i) r))
    (access : ∀ s i, P s → Startable t i s → (s.o3rob.get i).memaddr ≠ 0 →
      P (access cfg t (s.o3rob.slot i) (s.committed.length + i) s))
    (is : List Nat) (his : ∀ i ∈ is, i < s.o3rob.size) (u : Units) (h : P s) :
    P (executeLoop cfg t is s u) := by
  induction is generalizing s u with
  | nil => exact h
  | cons i is ih =>
    have lt := his i List.mem_cons_self
    have one : P (executeOne cfg t i s u).1.1 := by
      unfold executeOne
      dsimp only
      split
      · rename_i issued
        split
        · split
          · rename_i first
            exact complete s i _ _ h ⟨lt, issued.1, issued.2, .inl first⟩ (Nat.le_add_right _ _)
              (.inl first)
          · exact retry s h
        · split
          · split
            · rename_i first
              exact complete s i _ _ h ⟨lt, issued.1, issued.2, .inl first.1⟩ (Nat.le_add_right _ _)
                (.inl first.1)
            · exact retry s h
          · split
            · rename_i free
              have startable : Startable t i s := ⟨lt, issued.1, issued.2, .inr free⟩
              unfold start
              dsimp only
              split
              · rename_i alu
                exact complete s i s.isMigrateReady _ h startable (Nat.le_add_right _ _)
                  (.inr alu.1)
              · split
                · rename_i mem
                  exact access s i h startable mem.1
                · exact h
            · split
              · exact retry s h
              · exact h
      · split
        · exact retry s h
        · exact h
    unfold executeLoop
    dsimp only
    split
    · refine ih (fun j hj => ?_) _ one
      rw [(executeOne_samePlace t i s u).size]
      exact his j (List.mem_cons_of_mem _ hj)
    · exact one

theorem execute_keeps {P : O3Core → Prop} (retry : ∀ s, P s → P (retry cfg t s))
    (complete : ∀ s i m r, P s → Startable t i s → t ≤ r → i = 0 ∨ (s.o3rob.get i).memaddr = 0 →
      P (({ s with isMigrateReady := m }).complete (s.o3rob.slot i) r))
    (access : ∀ s i, P s → Startable t i s → (s.o3rob.get i).memaddr ≠ 0 →
      P (access cfg t (s.o3rob.slot i) (s.committed.length + i) s))
    (h : P s) : P (execute cfg t s) :=
  executeLoop_keeps retry complete access _ (fun _ hi => List.mem_range.mp hi) {} h

def Wakes (t i : Nat) (s : O3Core) : Prop :=
  (s.o3rob.get i).state = .completed ∧ (s.o3rob.get i).readyTime = t

theorem clearLoop_keeps {P : O3Core → Prop} {i : Nat}
    (clear : ∀ s j, P s → i < j → j < s.o3rob.size → s.o3rob.size ≤ s.o3rob.cap → Wakes t i s →
      (s.o3rob.get j).state = .issued →
      P (s.writeRob (s.o3rob.slot j) ((s.o3rob.get j).clear (s.o3rob.slot i))))
    (js : List Nat) (hjs : ∀ j ∈ js, i < j ∧ j < s.o3rob.size) (hs : s.o3rob.size ≤ s.o3rob.cap)
    (hw : Wakes t i s) (h : P s) :
    P (js.foldl (clearOne (s.o3rob.slot i)) s) ∧
      SamePlace s (js.foldl (clearOne (s.o3rob.slot i)) s) := by
  induction js generalizing s with
  | nil => exact ⟨h, SamePlace.refl s⟩
  | cons j js ih =>
    obtain ⟨hij, hj⟩ := hjs j List.mem_cons_self
    have rest : ∀ j' ∈ js, i < j' ∧ j' < s.o3rob.size :=
      fun j' h' => hjs j' (List.mem_cons_of_mem _ h')
    rw [List.foldl_cons]
    by_cases issued : (s.o3rob.get j).state = .issued
    · have one : clearOne (s.o3rob.slot i) s j =
          s.writeRob (s.o3rob.slot j) ((s.o3rob.get j).clear (s.o3rob.slot i)) :=
        if_neg (not_not.mpr issued)
      have keeps : (s.o3rob.write (s.o3rob.slot j)
          ((s.o3rob.get j).clear (s.o3rob.slot i))).get i = s.o3rob.get i := by
        rw [RingBuffer.get_write_slot (by omega) (by omega), if_neg hij.ne]
      have wakes : Wakes t i (s.writeRob (s.o3rob.slot j)
          ((s.o3rob.get j).clear (s.o3rob.slot i))) := by
        unfold Wakes
        show ((s.o3rob.write _ _).get i).state = _ ∧ ((s.o3rob.write _ _).get i).readyTime = _
        rw [keeps]
        exact hw
      have rest' := ih (s := s.writeRob (s.o3rob.slot j)
        ((s.o3rob.get j).clear (s.o3rob.slot i))) rest hs wakes (clear s j h hij hj hs hw issued)
      have same : (s.writeRob (s.o3rob.slot j)
        ((s.o3rob.get j).clear (s.o3rob.slot i))).o3rob.slot i = s.o3rob.slot i := rfl
      have place : SamePlace s (s.writeRob (s.o3rob.slot j)
        ((s.o3rob.get j).clear (s.o3rob.slot i))) := ⟨rfl, rfl, rfl⟩
      rw [same] at rest'
      rw [one]
      exact ⟨rest'.1, place.trans rest'.2⟩
    · have one : clearOne (s.o3rob.slot i) s j = s := if_pos issued
      rw [one]
      exact ih rest hs hw h

theorem wakeLoop_keeps {P : O3Core → Prop} (retry : ∀ s, P s → P (retry cfg t s))
    (clear : ∀ s i j, P s → i < j → j < s.o3rob.size → s.o3rob.size ≤ s.o3rob.cap → Wakes t i s →
      (s.o3rob.get j).state = .issued →
      P (s.writeRob (s.o3rob.slot j) ((s.o3rob.get j).clear (s.o3rob.slot i))))
    (is : List Nat) (his : ∀ i ∈ is, i < s.o3rob.size) (hs : s.o3rob.size ≤ s.o3rob.cap) (h : P s) :
    P (is.foldl (wakeOne cfg t) s) ∧ SamePlace s (is.foldl (wakeOne cfg t) s) := by
  induction is generalizing s with
  | nil => exact ⟨h, SamePlace.refl s⟩
  | cons i is ih =>
    have rest : ∀ j ∈ is, j < s.o3rob.size := fun j hj => his j (List.mem_cons_of_mem _ hj)
    rw [List.foldl_cons]
    unfold wakeOne
    dsimp only
    split
    · rename_i hw
      have behind : ∀ j ∈ List.range' (i + 1) (s.o3rob.size - (i + 1)), i < j ∧
        j < s.o3rob.size := by
        intro j hj
        rw [List.mem_range'_1] at hj
        omega
      obtain ⟨keeps, place⟩ := clearLoop_keeps (s := O3Core.retry cfg t s)
        (fun s j hp => clear s i j hp) _ behind hs hw (retry s h)
      have rest' := ih (fun j hj => place.size.symm ▸ rest j hj)
        (place.size.symm ▸ place.cap.symm ▸ hs) keeps
      exact ⟨rest'.1, ⟨rest'.2.head.trans place.head, rest'.2.size.trans place.size,
        rest'.2.cap.trans place.cap⟩⟩
    · exact ih rest hs h

theorem wake_keeps {P : O3Core → Prop} (retry : ∀ s, P s → P (retry cfg t s))
    (clear : ∀ s i j, P s → i < j → j < s.o3rob.size → s.o3rob.size ≤ s.o3rob.cap → Wakes t i s →
      (s.o3rob.get j).state = .issued →
      P (s.writeRob (s.o3rob.slot j) ((s.o3rob.get j).clear (s.o3rob.slot i))))
    (hs : s.o3rob.size ≤ s.o3rob.cap) (h : P s) :
    P (wake cfg t s) ∧ SamePlace s (wake cfg t s) :=
  wakeLoop_keeps retry clear _ (fun _ hi => List.mem_range.mp hi) hs h

theorem commitLoop_keeps {P : O3Core → Prop}
    (commit : ∀ s, P s → 0 < s.o3rob.size → (s.o3rob.slots s.o3rob.head).done t = true →
      P s.commitOne)
    (n : Nat) (h : P s) : P (commitLoop t n s) := by
  induction n generalizing s with
  | zero => exact h
  | succ n ih =>
    unfold commitLoop
    split
    · rename_i some
      refine ih ?_
      split
      · rename_i done
        exact commit s h some done
      · exact h
    · exact h

theorem commit_keeps {P : O3Core → Prop} (retry : ∀ s, P s → P (retry cfg t s))
    (commit : ∀ s, P s → 0 < s.o3rob.size → (s.o3rob.slots s.o3rob.head).done t = true →
      P s.commitOne)
    (h : P s) : P (O3Core.commit cfg t s) := by
  have loop := commitLoop_keeps commit cfg.maxCommitWidth h
  unfold O3Core.commit
  dsimp only
  split
  · exact retry _ loop
  · exact loop

def answered (s : O3Core) (n : Nat) : O3Core := { s with outstanding := s.outstanding.eraseIdx n }

/-- A request goes out once more, and NACKs are counted. -/
def resent (s : O3Core) (nacks : Nat) (callee : CorePort) (type : EventType) (time delay : Nat)
    (lqe : Lqe CorePort) : O3Core :=
  { s with numConsecutiveNacks := nacks }.resend callee type time delay lqe

def loaded (cfg : O3CoreConfig) (s : O3Core) (aligned address : Nat) : O3Core :=
  (List.range s.o3queue.size).foldl (loadOne cfg aligned address) (s.served aligned)

theorem loadOne_arrives (aligned : Nat) : loadOne cfg aligned a s i =
    { s with o3queue := s.o3queue.modify (O3Queue.arrive cfg aligned a) i } := by
  unfold loadOne
  dsimp only
  split
  · rename_i here
    have arrives : (s.o3queue.get i).arrive cfg aligned a = _ := if_pos here
    unfold RingBuffer.modify
    rw [arrives]
    rfl
  · rename_i other
    have same : (s.o3queue.get i).arrive cfg aligned a = s.o3queue.get i := if_neg other
    rw [RingBuffer.modify_eq_self same]

theorem loadLoop_arrives (aligned : Nat) (is : List Nat) : is.foldl (loadOne cfg aligned a) s =
    { s with o3queue := is.foldl (RingBuffer.modify (O3Queue.arrive cfg aligned a)) s.o3queue } := by
  induction is generalizing s with
  | nil => rfl
  | cons i is ih => rw [List.foldl_cons, loadOne_arrives, ih, List.foldl_cons]

theorem loaded_eq (aligned : Nat) : loaded cfg s aligned a = { s.served aligned with
    o3queue := (List.range s.o3queue.size).foldl (RingBuffer.modify (O3Queue.arrive cfg aligned a))
      s.o3queue } := loadLoop_arrives aligned _

@[simp] theorem loaded_rob : (loaded cfg s t a).o3rob = s.o3rob := by rw [loaded_eq]; rfl
@[simp] theorem loaded_now : (loaded cfg s t a).now = s.now := by rw [loaded_eq]; rfl
@[simp] theorem loaded_events : (loaded cfg s t a).events = insert t s.events := by
  rw [loaded_eq]; rfl

@[simp] theorem loaded_outstanding : (loaded cfg s t a).outstanding = s.outstanding := by
  rw [loaded_eq]; rfl

theorem addReqEvent_cases {time : Nat} {lqe : Lqe CorePort}
    (hs : addReqEvent cfg s time lqe = .ok s') :
    (∃ nacks delay, s' = s.resent nacks .cachel1i .read time delay lqe) ∨
      s' = loaded cfg s (ceilByY time cfg.processInterval) lqe.address := by
  unfold addReqEvent at hs
  dsimp only at hs
  split at hs
  · cases hs
    exact .inl ⟨s.numConsecutiveNacks, _, rfl⟩
  · split at hs
    · split at hs
      · cases hs
      · cases hs
        exact .inl ⟨s.numConsecutiveNacks + 1, _, rfl⟩
    · cases hs
      exact .inr rfl

theorem addRepEvent_cases {time : Nat} {lqe : Lqe CorePort}
    (hs : addRepEvent cfg s time lqe = .ok s') :
    (∃ nacks type delay, s' = s.resent nacks .cachel1d type time delay lqe) ∨
      ∃ r, ceilByY time cfg.processInterval ≤ r ∧
        s' = (s.served (ceilByY time cfg.processInterval)).complete lqe.robEntry.toNat r := by
  unfold addRepEvent at hs
  dsimp only at hs
  generalize (if (s.o3rob.slots lqe.robEntry.toNat).isread = true then EventType.read
    else EventType.write) = kind at hs
  split at hs
  · cases hs
    exact .inl ⟨s.numConsecutiveNacks, _, _, rfl⟩
  · split at hs
    · split at hs
      · cases hs
      · cases hs
        exact .inl ⟨s.numConsecutiveNacks + 1, _, _, rfl⟩
    · split at hs
      · cases hs
      · cases hs
        exact .inr ⟨_, Nat.le_add_right _ _, rfl⟩

theorem answer_cases {n time : Nat} {type : EventType} (hs : answer cfg s n type time = .ok s') :
    ∃ call, s.outstanding[n]? = some call ∧
      (isFetch call = true ∧
          addReqEvent cfg (s.answered n) time { call.lqe with type } = .ok s' ∨
        isAccess call = true ∧
          addRepEvent cfg (s.answered n) time { call.lqe with type } = .ok s') := by
  unfold answer at hs
  cases hcall : s.outstanding[n]? with
  | none =>
    rw [hcall] at hs
    cases hs
  | some call =>
    rw [hcall] at hs
    dsimp only at hs
    refine ⟨call, rfl, ?_⟩
    cases hp : call.callee <;> rw [hp] at hs <;> dsimp only at hs
    · cases hs
    · exact .inl ⟨by simp [isFetch, hp], hs⟩
    · exact .inl ⟨by simp [isFetch, hp], hs⟩
    · exact .inr ⟨by simp [isAccess, hp], hs⟩
    · exact .inr ⟨by simp [isAccess, hp], hs⟩

end O3Core
end McSim
