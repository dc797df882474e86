import McSim.O3CoreRings

/-! Instruction fetch.
A call looks for the oldest entry of the queue that is not fetched yet, requests its line, and lets
the younger entries on that line join. Whether there is a request yet is told by its address not
being 0. -/

namespace McSim

/-- The entry joins the request for the line at `a`, if it waits for that line. -/
def O3Queue.join (cfg : O3CoreConfig) (a : Nat) (e : O3Queue) : O3Queue :=
  if e.state = .notInQueue ∧ a >>> cfg.setLsb = e.instr.ip >>> cfg.setLsb then
    { e with state := .beingLoaded }
  else e

theorem O3Queue.join_join (cfg : O3CoreConfig) (a : Nat) (e : O3Queue) :
    (e.join cfg a).join cfg a = e.join cfg a := by
  unfold join
  split
  · exact if_neg fun h => by cases h.1
  · rfl

namespace O3Core

variable {cfg : O3CoreConfig} {s s' s₁ s₂ : O3Core} {t a i j : Nat}

def line (cfg : O3CoreConfig) (ip : Nat) : Nat := ip >>> cfg.setLsb <<< cfg.setLsb

def Waits (s : O3Core) (i : Nat) : Prop := (s.o3queue.get i).state = .notInQueue

instance : Decidable (Waits s i) := inferInstanceAs (Decidable (_ = _))

structure Oldest (s : O3Core) (i : Nat) : Prop where
  lt : i < s.o3queue.size
  waits : Waits s i
  first : ∀ j < i, ¬ Waits s j

theorem line_shiftRight {n : Nat} : line cfg n >>> cfg.setLsb = n >>> cfg.setLsb :=
  Nat.shiftLeft_shiftRight _ _

theorem line_eq_zero {n : Nat} : line cfg n = 0 ↔ n >>> cfg.setLsb = 0 := by
  refine ⟨fun zero => ?_, fun zero => by rw [line, zero, Nat.zero_shiftLeft]⟩
  rw [← line_shiftRight, zero, Nat.zero_shiftRight]

def fetchCall (cfg : O3CoreConfig) (t address : Nat) : Call CorePort :=
  if cfg.bypassTlb then
    { callee := .cachel1i, kind := .req, time := t + cfg.lsuToL1iT
      lqe := { Lqe.new .o3core .tlbRd address cfg.num with type := .read } }
  else
    { callee := .tlbl1i, kind := .req, time := t + cfg.lsuToL1iT
      lqe := Lqe.new .o3core .tlbRd address cfg.num }

theorem isFetch_fetchCall : isFetch (fetchCall cfg t a) = true := by
  unfold fetchCall
  split <;> rfl

theorem fetchCall_address : (fetchCall cfg t a).lqe.address = a := by
  unfold fetchCall
  split <;> rfl

def load (s : O3Core) (i : Nat) : O3Core :=
  s.writeQueue (s.o3queue.slot i) { s.o3queue.get i with state := .beingLoaded }

theorem load_get (hs : s.o3queue.size ≤ s.o3queue.cap) (hi : i < s.o3queue.size)
    (hj : j < s.o3queue.size) :
    (s.load i).o3queue.get j =
      if j = i then { s.o3queue.get i with state := .beingLoaded } else s.o3queue.get j :=
  RingBuffer.get_write_slot (hi.trans_le hs) (hj.trans_le hs)

def sent (cfg : O3CoreConfig) (t : Nat) (s : O3Core) (i : Nat) : O3Core :=
  { s.load i with
    outstanding := s.outstanding ++ [fetchCall cfg t (line cfg (s.o3queue.get i).instr.ip)] }

theorem fetchOne_other (other : ¬ Waits s i) : fetchOne cfg t (s, a) i = (s, a) := if_pos other

theorem fetchOne_first (waits : Waits s i) :
    fetchOne cfg t (s, 0) i = (sent cfg t s i, line cfg (s.o3queue.get i).instr.ip) := by
  have waits : (s.o3queue.slots (s.o3queue.slot i)).state = .notInQueue := waits
  unfold fetchOne sent fetchCall
  dsimp only
  rw [if_neg (not_not.mpr waits), if_pos rfl]
  split <;> rfl

theorem fetchOne_joins (some : a ≠ 0) : fetchOne cfg t (s, a) i =
    ({ s with o3queue := s.o3queue.modify (O3Queue.join cfg a) i }, a) := by
  have same : (s.o3queue.get i).join cfg a = s.o3queue.get i →
      { s with o3queue := s.o3queue.modify (O3Queue.join cfg a) i } = s := fun same => by
    rw [RingBuffer.modify_eq_self same]
  by_cases waits : (s.o3queue.slots (s.o3queue.slot i)).state = .notInQueue
  · unfold fetchOne
    dsimp only
    rw [if_neg (not_not.mpr waits), if_neg some]
    split
    · rename_i line
      have joins : (s.o3queue.get i).join cfg a = _ := if_pos ⟨waits, line⟩
      unfold RingBuffer.modify
      rw [joins]
      rfl
    · rename_i line
      rw [same (if_neg fun h => line h.2)]
  · rw [fetchOne_other waits, same (if_neg fun h => waits h.1)]

theorem fetchLoop_joins {is : List Nat} (some : a ≠ 0) : is.foldl (fetchOne cfg t) (s, a) =
    ({ s with o3queue := is.foldl (RingBuffer.modify (O3Queue.join cfg a)) s.o3queue }, a) := by
  induction is generalizing s with
  | nil => rfl
  | cons i is ih => rw [List.foldl_cons, fetchOne_joins some, ih, List.foldl_cons]

theorem fetchLoop_other {is : List Nat} (other : ∀ i ∈ is, ¬ Waits s i) :
    is.foldl (fetchOne cfg t) (s, a) = (s, a) := by
  induction is with
  | nil => rfl
  | cons i is ih =>
    obtain ⟨here, rest⟩ := List.forall_mem_cons.mp other
    rw [List.foldl_cons, fetchOne_other here, ih rest]

/-- The requests for instructions without an answer -/
def fetches (s : O3Core) : List (Call CorePort) := s.outstanding.filter isFetch

theorem fetch_none (none : ∀ i < s.o3queue.size, ¬ Waits s i) : fetch cfg t s = s := by
  unfold fetch
  rw [fetchLoop_other fun i hi => none i (List.mem_range.mp hi)]

def behind (s : O3Core) (i : Nat) : List Nat := List.range' (i + 1) (s.o3queue.size - (i + 1))

theorem mem_behind (hi : i < s.o3queue.size) : j ∈ s.behind i ↔ i < j ∧ j < s.o3queue.size := by
  unfold behind
  rw [List.mem_range'_1]
  omega

theorem fetch_first (first : Oldest s i) :
    fetch cfg t s = ((s.behind i).foldl (fetchOne cfg t)
      (sent cfg t s i, line cfg (s.o3queue.get i).instr.ip)).1 := by
  have lt := first.lt
  have split : List.range s.o3queue.size = List.range' 0 i ++ i :: s.behind i := by
    have size : s.o3queue.size = i + (s.o3queue.size - (i + 1) + 1) := by omega
    unfold behind
    rw [← List.range'_succ, List.range_eq_range']
    conv_lhs => rw [size]
    rw [← List.range'_append_1, Nat.zero_add]
  have before : ∀ j ∈ List.range' 0 i, ¬ Waits s j := fun j hj =>
    first.first j (by simpa using hj)
  unfold fetch
  rw [split, List.foldl_append, fetchLoop_other before, List.foldl_cons, fetchOne_first first.waits]

/-- One request goes out, for the line of entry `i`, and takes with it who waits for that line. -/
structure Sends (cfg : O3CoreConfig) (t i : Nat) (s s' : O3Core) : Prop where
  fetches : s'.fetches = s.fetches ++ [fetchCall cfg t (line cfg (s.o3queue.get i).instr.ip)]
  size : s'.o3queue.size = s.o3queue.size
  get : ∀ j < s.o3queue.size, s'.o3queue.get j =
    (s.o3queue.get j).join cfg (line cfg (s.o3queue.get i).instr.ip)

theorem sent_fetches : (sent cfg t s i).fetches =
    s.fetches ++ [fetchCall cfg t (line cfg (s.o3queue.get i).instr.ip)] := by
  unfold fetches sent
  rw [List.filter_append, List.filter_cons_of_pos isFetch_fetchCall, List.filter_nil]

theorem join_self (waits : Waits s i) :
    (s.o3queue.get i).join cfg (line cfg (s.o3queue.get i).instr.ip) =
      { s.o3queue.get i with state := .beingLoaded } := if_pos ⟨waits, line_shiftRight⟩

theorem join_other {e : O3Queue} (other : e.state ≠ .notInQueue) : e.join cfg a = e :=
  if_neg fun h => other h.1

theorem fetch_sends_line (hs : s.o3queue.size ≤ s.o3queue.cap) (first : Oldest s i)
    (some : (s.o3queue.get i).instr.ip >>> cfg.setLsb ≠ 0) : Sends cfg t i s (fetch cfg t s) := by
  have loop : fetch cfg t s = _ := (fetch_first first).trans
    (congrArg Prod.fst (fetchLoop_joins (s := sent cfg t s i) (mt line_eq_zero.mp some)))
  have inside : ∀ j ∈ s.behind i, j < s.o3queue.size := fun j hj => ((mem_behind first.lt).mp hj).2
  have joined := fun j (hj : j < s.o3queue.size) =>
    RingBuffer.get_foldl_modify (r := (sent cfg t s i).o3queue)
      (O3Queue.join_join cfg (line cfg (s.o3queue.get i).instr.ip)) hs inside hj
  rw [loop]
  refine ⟨sent_fetches, RingBuffer.foldl_modify_size, fun j hj => ?_⟩
  have get : (sent cfg t s i).o3queue.get j = _ := load_get hs first.lt hj
  have mem := mem_behind (j := j) first.lt
  rw [joined j hj, get]
  rcases Nat.lt_trichotomy j i with before | rfl | after
  · rw [if_neg fun h => (mem.mp h).1.not_gt before, if_neg before.ne,
      join_other (first.first j before)]
  · rw [if_neg fun h => (mem.mp h).1.false, if_pos rfl, join_self first.waits]
  · rw [if_pos (mem.mpr ⟨after, hj⟩), if_neg after.ne']

theorem fetch_sends_last (hs : s.o3queue.size ≤ s.o3queue.cap) (first : Oldest s i)
    (last : ∀ j < s.o3queue.size, i < j → ¬ Waits s j) : Sends cfg t i s (fetch cfg t s) := by
  have get : ∀ j < s.o3queue.size, (sent cfg t s i).o3queue.get j = _ :=
    fun j hj => load_get hs first.lt hj
  have others : ∀ j < s.o3queue.size, j ≠ i → ¬ Waits s j := fun j hj other => by
    rcases Nat.lt_or_gt_of_ne other with before | after
    · exact first.first j before
    · exact last j hj after
  have rest : ∀ j ∈ s.behind i, ¬ Waits (sent cfg t s i) j := fun j hj => by
    obtain ⟨after, lt⟩ := (mem_behind first.lt).mp hj
    unfold Waits
    rw [get j lt, if_neg after.ne']
    exact others j lt after.ne'
  rw [fetch_first first, fetchLoop_other rest]
  refine ⟨sent_fetches, rfl, fun j hj => ?_⟩
  rw [get j hj]
  split
  · rename_i here
    rw [here, join_self first.waits]
  · rename_i other
    rw [join_other (others j hj other)]

theorem fetchOne_fetches {p : O3Core × Nat} :
    p.1.fetches.length ≤ (fetchOne cfg t p i).1.fetches.length := by
  have more : ∀ (s : O3Core) (c : Call CorePort),
      s.fetches.length ≤ ((s.outstanding ++ [c]).filter isFetch).length := by
    intro s c
    rw [List.filter_append, List.length_append]
    exact Nat.le_add_right _ _
  unfold fetchOne
  dsimp only
  split
  · exact le_rfl
  · split
    · split
      · exact more _ _
      · exact more _ _
    · split
      · exact le_rfl
      · exact le_rfl

theorem fetchLoop_fetches {is : List Nat} {p : O3Core × Nat} :
    p.1.fetches.length ≤ (is.foldl (fetchOne cfg t) p).1.fetches.length := by
  induction is generalizing p with
  | nil => exact le_rfl
  | cons i is ih => exact fetchOne_fetches.trans ih

theorem fetchLoop_sends {is : List Nat} (some : ∃ i ∈ is, Waits s i) :
    s.fetches.length < (is.foldl (fetchOne cfg t) (s, 0)).1.fetches.length := by
  induction is with
  | nil =>
    obtain ⟨i, hi, -⟩ := some
    cases hi
  | cons i is ih =>
    rw [List.foldl_cons]
    by_cases waits : Waits s i
    · rw [fetchOne_first waits]
      refine Nat.lt_of_lt_of_le ?_ fetchLoop_fetches
      rw [sent_fetches, List.length_append]
      exact Nat.lt_succ_self _
    · rw [fetchOne_other waits]
      obtain ⟨j, hj, waits'⟩ := some
      refine ih ⟨j, (List.mem_cons.mp hj).resolve_left fun here => ?_, waits'⟩
      exact waits (here ▸ waits')

theorem fetch_sends_two (hs : s.o3queue.size ≤ s.o3queue.cap) (first : Oldest s i)
    (zero : (s.o3queue.get i).instr.ip >>> cfg.setLsb = 0) (hj : j < s.o3queue.size) (after : i < j)
    (waits : Waits s j) : s.fetches.length + 1 < (fetch cfg t s).fetches.length := by
  rw [fetch_first first, line_eq_zero.mpr zero]
  have one : (sent cfg t s i).fetches.length = s.fetches.length + 1 := by
    rw [sent_fetches, List.length_append]
    rfl
  rw [← one]
  refine fetchLoop_sends ⟨j, (mem_behind first.lt).mpr ⟨after, hj⟩, ?_⟩
  have get : (sent cfg t s i).o3queue.get j = _ := load_get hs first.lt hj
  unfold Waits
  rw [get, if_neg after.ne']
  exact waits

/-- `popped` entries that are ready have left the queue, and no fetch has gone out. -/
structure Drains (popped : Nat) (s s' : O3Core) : Prop where
  fetches : s'.fetches = s.fetches
  size : s.o3queue.size = popped + s'.o3queue.size
  ready : ∀ i < popped, (s.o3queue.get i).state = .ready
  get : ∀ i < s'.o3queue.size, s'.o3queue.get i = s.o3queue.get (popped + i)

theorem Drains.refl (s : O3Core) : Drains 0 s s where
  fetches := rfl
  size := (Nat.zero_add _).symm
  ready _ hi := absurd hi (Nat.not_lt_zero _)
  get i _ := by rw [Nat.zero_add]

theorem Drains.of_same {popped : Nat} (h : Drains popped s s₁) (queue : s'.o3queue = s₁.o3queue)
    (fetches : s'.fetches = s₁.fetches) : Drains popped s s' where
  fetches := fetches.trans h.fetches
  size := by
    rw [queue]
    exact h.size
  ready := h.ready
  get := by
    rw [queue]
    exact h.get

theorem Drains.issueInstr {popped : Nat} (h : Drains popped s₁ s) (hc : Consistent cfg s)
    (hq : 0 < s.o3queue.size) (room : s.o3rob.size < cfg.o3robMaxSize - 3)
    (ready : (s.o3queue.slots s.o3queue.head).state = .ready) :
    Drains (popped + 1) s₁ (issueInstr cfg t (s.o3queue.slots s.o3queue.head).instr s) := by
  have hr := hc.rings
  have room : s.o3rob.size + 3 < s.o3rob.cap := by
    rw [hr.robCap]
    omega
  obtain ⟨new, he, -⟩ := issueInstr_enters cfg t (s.o3queue.slots s.o3queue.head).instr room
  generalize O3Core.issueInstr cfg t (s.o3queue.slots s.o3queue.head).instr s = s' at *
  have size : s'.o3queue.size = s.o3queue.size - 1 := by
    rw [he.queue]
    rfl
  refine ⟨?_, ?_, fun i hi => ?_, fun i hi => ?_⟩
  · exact (congrArg (List.filter isFetch) he.outstanding).trans h.fetches
  · rw [h.size, size]
    omega
  · rcases Nat.lt_succ_iff_lt_or_eq.mp hi with hi | rfl
    · exact h.ready i hi
    · have head := h.get 0 hq
      rw [RingBuffer.get, RingBuffer.slot_zero hr.queueHead] at head
      rw [← Nat.add_zero i, ← head]
      exact ready
  · have hi : i + 1 < s.o3queue.size := by omega
    have get := h.get (i + 1) hi
    rw [he.queue, RingBuffer.get_write_pop hr.queueHead (hi.trans_le hr.queueSize), get,
      Nat.add_right_comm, Nat.add_assoc]

theorem issue_drains (hc : Consistent cfg s) : ∃ popped, Drains popped s (issue cfg t s) :=
  (issueLoop_keeps (P := fun s' => (∃ popped, Drains popped s s') ∧ Consistent cfg s')
    (fun s' hp hq room ready _ => by
      obtain ⟨⟨popped, drains⟩, consistent⟩ := hp
      exact ⟨⟨popped + 1, drains.issueInstr consistent hq room ready⟩,
        issueInstr_consistent consistent hq room⟩) _ ⟨⟨0, Drains.refl s⟩, hc⟩).1

theorem access_fetches {k n : Nat} : (access cfg t k n s).o3queue = s.o3queue ∧
    (access cfg t k n s).fetches = s.fetches := by
  unfold access fetches
  dsimp only
  split
  · exact ⟨rfl, (List.filter_append _ _).trans (List.append_nil _)⟩
  · exact ⟨rfl, (List.filter_append _ _).trans (List.append_nil _)⟩

theorem behind_fetch_drains (hc : Consistent cfg s) : ∃ popped, Drains popped s
    (commit cfg t (wake cfg t (execute cfg t (issue cfg t s)))) := by
  obtain ⟨popped, issued⟩ := issue_drains (t := t) hc
  have hs := (execute_consistent (t := t) (issue_consistent (t := t) hc)).rings.robSize.le
  have executed : Drains popped s (execute cfg t (issue cfg t s)) :=
    execute_keeps (fun _ hp => hp.of_same rfl rfl) (fun _ _ _ _ hp _ _ _ => hp.of_same rfl rfl)
      (fun _ _ hp _ _ => hp.of_same access_fetches.1 access_fetches.2) issued
  have woken : Drains popped s (wake cfg t (execute cfg t (issue cfg t s))) :=
    (wake_keeps (fun _ hp => hp.of_same rfl rfl) (fun _ _ _ hp _ _ _ _ _ => hp.of_same rfl rfl) hs
      executed).1
  exact ⟨popped, commit_keeps (fun _ hp => hp.of_same rfl rfl) (fun _ hp _ _ => hp.of_same rfl rfl)
    woken⟩

/-- From `s` to `s'` the fetch `new` went out, if any, for the oldest entry that waited; exactly the
entries that waited for its line are being loaded, and `popped` entries have left. -/
structure FetchesFor (cfg : O3CoreConfig) (new : Option (Call CorePort)) (popped : Nat)
    (s s' : O3Core) : Prop where
  fetches : s'.fetches = s.fetches ++ new.toList
  oldest : ∀ c ∈ new, ∃ i, Oldest s i ∧ c.lqe.address = line cfg (s.o3queue.get i).instr.ip
  size : s.o3queue.size = popped + s'.o3queue.size
  ready : ∀ i < popped, (s.o3queue.get i).state = .ready
  get : ∀ i < s'.o3queue.size, s'.o3queue.get i =
    new.elim (s.o3queue.get (popped + i)) fun c => (s.o3queue.get (popped + i)).join cfg
      c.lqe.address

/-- A call sends at most one fetch, and the right one. -/
def FetchCorrect (cfg : O3CoreConfig) (s s' : O3Core) : Prop :=
  ∃ new popped, FetchesFor cfg new popped s s'

/-- The core wants instructions instead, or the oldest entry that waits is not on the line at 0, or
no other entry waits. -/
def LineTold (cfg : O3CoreConfig) (s : O3Core) : Prop :=
  s.hungry cfg = true ∨ ∀ i, Oldest s i → (s.o3queue.get i).instr.ip >>> cfg.setLsb ≠ 0 ∨
    ∀ j < s.o3queue.size, i < j → ¬ Waits s j

theorem exists_oldest (some : ∃ i < s.o3queue.size, Waits s i) : ∃ i, Oldest s i := by
  obtain ⟨lt, waits⟩ := Nat.find_spec some
  refine ⟨Nat.find some, lt, waits, fun j hj waits' => ?_⟩
  exact Nat.find_min some hj ⟨hj.trans lt, waits'⟩

theorem Drains.fetchCorrect {popped : Nat} (h : Drains popped s s') : FetchCorrect cfg s s' := by
  refine ⟨none, popped, h.fetches.trans (List.append_nil _).symm, fun c hc => ?_, h.size, h.ready,
    h.get⟩
  cases hc

theorem Sends.fetchCorrect {popped : Nat} (h : Sends cfg t i s s₁) (first : Oldest s i)
    (rest : Drains popped s₁ s') : FetchCorrect cfg s s' := by
  have size : s.o3queue.size = popped + s'.o3queue.size := h.size.symm.trans rest.size
  refine ⟨some (fetchCall cfg t (line cfg (s.o3queue.get i).instr.ip)), popped,
    rest.fetches.trans h.fetches, fun c hc => ?_, size, fun j hj => ?_, fun j hj => ?_⟩
  · cases hc
    exact ⟨i, first, fetchCall_address⟩
  · have ready := rest.ready j hj
    rw [h.get j (by omega)] at ready
    unfold O3Queue.join at ready
    split at ready
    · cases ready
    · exact ready
  · rw [rest.get j hj, h.get (popped + j) (by omega), Option.elim_some, fetchCall_address]

theorem phases_fetchCorrect_iff (hc : Consistent cfg s) : FetchCorrect cfg s (phases cfg t s) ↔
    ∀ i, Oldest s i → (s.o3queue.get i).instr.ip >>> cfg.setLsb ≠ 0 ∨
      ∀ j < s.o3queue.size, i < j → ¬ Waits s j := by
  have hs := hc.rings.queueSize
  have fetched : Consistent cfg (fetch cfg t s) := (fetch_fetched hs).1.consistent hc
  obtain ⟨popped, rest⟩ := behind_fetch_drains (t := t) fetched
  have rest : Drains popped (fetch cfg t s) (phases cfg t s) := rest
  constructor
  · rintro ⟨new, _, correct⟩ i first
    by_contra! two
    obtain ⟨zero, j, hj, after, waits⟩ := two
    have more := fetch_sends_two (t := t) hs first zero hj after waits
    have length := congrArg List.length (rest.fetches.symm.trans correct.fetches)
    rw [List.length_append] at length
    have one : new.toList.length ≤ 1 := by
      cases new <;> simp
    omega
  · intro told
    by_cases some : ∃ i < s.o3queue.size, Waits s i
    · obtain ⟨i, first⟩ := exists_oldest some
      have sends : Sends cfg t i s (fetch cfg t s) := by
        rcases told i first with line | last
        · exact fetch_sends_line hs first line
        · exact fetch_sends_last hs first last
      exact sends.fetchCorrect first rest
    · rw [fetch_none fun i hi waits => some ⟨i, hi, waits⟩] at rest
      exact rest.fetchCorrect

theorem dispatch_fetchCorrect_iff (hc : Consistent cfg s) :
    FetchCorrect cfg (skip cfg t (s.take t)) (dispatch cfg s t).1 ↔
      LineTold cfg (skip cfg t (s.take t)) := by
  have taken : Consistent cfg (s.take t) := hc.of_same rfl rfl rfl rfl rfl rfl
  unfold dispatch processEvent LineTold
  dsimp only
  split
  · rename_i hungry
    have same : Drains 0 (skip cfg t (s.take t)) ((skip cfg t (s.take t)).addEvent t) :=
      (Drains.refl _).of_same rfl rfl
    exact ⟨fun _ => .inl hungry, fun _ => same.fetchCorrect⟩
  · rename_i sated
    rw [phases_fetchCorrect_iff (skip_consistent taken)]
    exact ⟨.inr, fun h => h.resolve_left sated⟩

structure Arrives (cfg : O3CoreConfig) (aligned a : Nat) (s s' : O3Core) : Prop where
  size : s'.o3queue.size = s.o3queue.size
  get : ∀ j < s.o3queue.size, s'.o3queue.get j = (s.o3queue.get j).arrive cfg aligned a

theorem loaded_arrives (hs : s.o3queue.size ≤ s.o3queue.cap) (aligned : Nat) :
    Arrives cfg aligned a s (loaded cfg s aligned a) := by
  rw [loaded_eq]
  refine ⟨RingBuffer.foldl_modify_size, fun j hj => ?_⟩
  have get := RingBuffer.get_foldl_modify (O3Queue.arrive_arrive cfg aligned a) hs
    (fun i hi => List.mem_range.mp hi) hj
  exact get.trans (if_pos (List.mem_range.mpr hj))

def Loading (cfg : O3CoreConfig) (s : O3Core) : Prop :=
  ∀ i < s.o3queue.size, (s.o3queue.get i).state = .beingLoaded →
    ∃ c ∈ s.outstanding, isFetch c = true ∧
      c.lqe.address >>> cfg.setLsb = (s.o3queue.get i).instr.ip >>> cfg.setLsb

def Refetched (s s' : O3Core) : Prop :=
  ∀ c ∈ s.outstanding, isFetch c = true →
    ∃ c' ∈ s'.outstanding, isFetch c' = true ∧ c'.lqe.address = c.lqe.address

theorem refetched_of_subset (h : s.outstanding ⊆ s'.outstanding) : Refetched s s' :=
  fun c hc isf => ⟨c, h hc, isf, rfl⟩

theorem Loading.of_same (h : Loading cfg s) (queue : s'.o3queue = s.o3queue)
    (out : Refetched s s') : Loading cfg s' := by
  unfold Loading
  rw [queue]
  intro i hi hx
  obtain ⟨c, hc, isf, line⟩ := h i hi hx
  obtain ⟨c', hc', isf', address⟩ := out c hc isf
  exact ⟨c', hc', isf', address ▸ line⟩

theorem Loading.fetch (h : Loading cfg s) (hf : Fetched cfg s s') : Loading cfg s' := by
  obtain ⟨calls, out, -⟩ := hf.calls
  intro i hi hx
  rw [hf.size] at hi
  rcases hf.entry i hi with same | ⟨-, load, c, hc, isf, line⟩
  · rw [same] at hx ⊢
    obtain ⟨c, hc, isf, line⟩ := h i hi hx
    exact ⟨c, out ▸ List.mem_append_left _ hc, isf, line⟩
  · rw [load]
    exact ⟨c, hc, isf, line⟩

theorem Loading.drains {popped : Nat} (h : Loading cfg s) (hd : Drains popped s s') :
    Loading cfg s' := by
  intro i hi hx
  have size := hd.size
  rw [hd.get i hi] at hx ⊢
  obtain ⟨c, hc, isf, line⟩ := h (popped + i) (by omega) hx
  have still : c ∈ s'.fetches := hd.fetches ▸ List.mem_filter.mpr ⟨hc, isf⟩
  exact ⟨c, (List.mem_filter.mp still).1, isf, line⟩

theorem Loading.dispatch (h : Loading cfg s) (hc : Consistent cfg s) :
    Loading cfg (dispatch cfg s t).1 := by
  have taken : Consistent cfg (s.take t) := hc.of_same rfl rfl rfl rfl rfl rfl
  have skipped : Loading cfg (skip cfg t (s.take t)) := by
    unfold skip
    split
    · exact fun i hi => absurd hi (Nat.not_lt_zero i)
    · exact h
  have hs := (skip_consistent (t := t) taken).rings.queueSize
  unfold O3Core.dispatch processEvent
  dsimp only
  split
  · exact skipped
  · have fetched : Fetched cfg (skip cfg t (s.take t)) _ := (fetch_fetched (t := t) hs).1
    obtain ⟨popped, rest⟩ :=
      behind_fetch_drains (t := t) (fetched.consistent (skip_consistent taken))
    exact (skipped.fetch fetched).drains rest

theorem answered_mem {n : Nat} {call c : Call CorePort} (hcall : s.outstanding[n]? = some call)
    (hc : c ∈ s.outstanding) : c = call ∨ c ∈ (s.answered n).outstanding := by
  obtain ⟨before, behind, out, rest⟩ := outstanding_split hcall
  rw [out] at hc
  show c = call ∨ c ∈ s.outstanding.eraseIdx n
  rw [rest]
  rcases List.mem_append.mp hc with hc | hc
  · exact .inr (List.mem_append_left _ hc)
  · exact (List.mem_cons.mp hc).imp_right fun hc => List.mem_append_right _ hc

theorem Loading.loaded (h : Loading cfg s) (hs : s.o3queue.size ≤ s.o3queue.cap) {n : Nat}
    {call : Call CorePort} (hcall : s.outstanding[n]? = some call) (aligned : Nat) :
    Loading cfg (loaded cfg (s.answered n) aligned call.lqe.address) := by
  have arrives : Arrives cfg aligned call.lqe.address (s.answered n) _ :=
    loaded_arrives (s := s.answered n) hs aligned
  intro i hi hx
  have hi : i < s.o3queue.size := arrives.size ▸ hi
  rw [arrives.get i hi] at hx ⊢
  unfold O3Queue.arrive at hx ⊢
  split at hx
  · cases hx
  · rename_i other
    rw [if_neg other]
    obtain ⟨c, hc, isf, line⟩ := h i hi hx
    rcases answered_mem hcall hc with rfl | hc
    · exact absurd ⟨hx, line⟩ other
    · exact ⟨c, loaded_outstanding.symm ▸ hc, isf, line⟩

theorem resent_refetched {n nacks time delay : Nat} {type : EventType} {call : Call CorePort}
    (hcall : s.outstanding[n]? = some call) :
    Refetched s ((s.answered n).resent nacks .cachel1i .read time delay
      { call.lqe with type }) := by
  intro c hc isf
  rcases answered_mem hcall hc with rfl | hc
  · exact ⟨_, List.mem_append_right _ List.mem_cons_self, rfl, rfl⟩
  · exact ⟨c, List.mem_append_left _ hc, isf, rfl⟩

theorem answered_refetched {n : Nat} {call : Call CorePort} (hcall : s.outstanding[n]? = some call)
    (isa : isAccess call = true) : Refetched s (s.answered n) := by
  intro c hc isf
  rcases answered_mem hcall hc with rfl | hc
  · rw [fetch_not_access isf] at isa
    cases isa
  · exact ⟨c, hc, isf, rfl⟩

theorem Loading.answer (h : Loading cfg s) (hs : s.o3queue.size ≤ s.o3queue.cap) {n time : Nat}
    {type : EventType} (ha : answer cfg s n type time = .ok s') : Loading cfg s' := by
  obtain ⟨call, hcall, ⟨isf, ha⟩ | ⟨isa, ha⟩⟩ := answer_cases ha
  · rcases addReqEvent_cases ha with ⟨nacks, delay, rfl⟩ | rfl
    · exact h.of_same rfl (resent_refetched hcall)
    · exact h.loaded hs hcall _
  · have left : Loading cfg (s.answered n) := h.of_same rfl (answered_refetched hcall isa)
    rcases addRepEvent_cases ha with ⟨nacks, kind, delay, rfl⟩ | ⟨r, -, rfl⟩
    · exact left.of_same rfl (refetched_of_subset (List.subset_append_left _ _))
    · exact left

theorem Loading.addInstruction (h : Loading cfg s) (hc : Consistent cfg s) (x : Pthread.PtsInstr) :
    Loading cfg (addInstruction cfg s x).1 := by
  have woken : Loading cfg (s.wakeUp x.currTime) ∧
      (s.wakeUp x.currTime).o3queue.cap = cfg.o3queueMaxSize := by
    unfold wakeUp
    split
    · exact ⟨h, hc.rings.queueCap⟩
    · exact ⟨h, hc.rings.queueCap⟩
  obtain ⟨h, cap⟩ := woken
  unfold O3Core.addInstruction
  dsimp only
  generalize s.wakeUp x.currTime = s at *
  split
  · exact h
  · rename_i full
    have room : s.o3queue.size < s.o3queue.cap := cap ▸ Nat.not_le.mp full
    intro i hi hx
    rcases Nat.lt_succ_iff_lt_or_eq.mp hi with hi | rfl
    · dsimp only at hx ⊢
      rw [RingBuffer.get_push_lt room hi] at hx ⊢
      exact h i hi hx
    · dsimp only at hx
      rw [RingBuffer.get_push_size room] at hx
      cases hx

theorem run_loading (h : Run cfg s) : Loading cfg s := by
  induction h with
  | init => exact fun i hi => absurd hi (Nat.not_lt_zero i)
  | step e hr hs ih =>
    have hc := run_consistent hr
    cases e with
    | addInstruction x =>
      cases hs
      exact ih.addInstruction hc x
    | setActive isActive =>
      cases hs
      exact ih
    | processEvent t =>
      cases hs
      exact ih.dispatch hc
    | answer n type time => exact ih.answer hc.rings.queueSize hs
    | migrate isMigrateReady =>
      cases hs
      exact ih
    | advance t =>
      cases hs
      exact ih

theorem answer_arrives (hc : Consistent cfg s) {n time : Nat} {type : EventType}
    {call : Call CorePort} (hcall : s.outstanding[n]? = some call) (isf : isFetch call = true)
    (final : type ≠ .tlbRd ∧ type ≠ .nack) (ha : answer cfg s n type time = .ok s') :
    Arrives cfg (ceilByY time cfg.processInterval) call.lqe.address s s' := by
  obtain ⟨call', hcall', ⟨-, ha⟩ | ⟨isa, -⟩⟩ := answer_cases ha
  · cases hcall.symm.trans hcall'
    unfold addReqEvent at ha
    dsimp only at ha
    rw [if_neg final.1, if_neg final.2] at ha
    cases ha
    have arrives : Arrives cfg (ceilByY time cfg.processInterval) call.lqe.address
      (s.answered n) _ :=
      loaded_arrives (s := s.answered n) hc.rings.queueSize (ceilByY time cfg.processInterval)
    exact ⟨arrives.size, arrives.get⟩
  · cases hcall.symm.trans hcall'
    rw [fetch_not_access isf] at isa
    cases isa

/-- Fetching is right in every call that looks for instructions only when the line at 0 cannot be
taken for none. -/
theorem run_fetches (h : Run cfg s) :
    (∀ t, FetchCorrect cfg (skip cfg t (s.take t)) (dispatch cfg s t).1 ↔
      LineTold cfg (skip cfg t (s.take t))) ∧
    Loading cfg s ∧
    ∀ n time type call s', s.outstanding[n]? = some call → isFetch call = true →
      type ≠ .tlbRd ∧ type ≠ .nack → answer cfg s n type time = .ok s' →
      Arrives cfg (ceilByY time cfg.processInterval) call.lqe.address s s' := by
  have hc := run_consistent h
  refine ⟨fun t => dispatch_fetchCorrect_iff hc, run_loading h, ?_⟩
  intro n time type call s' hcall isf final ha
  exact answer_arrives hc hcall isf final ha

/-- Two lines by turns: the first fetch is for two entries, and when its line is there, the other
one is fetched. -/
theorem run_fetches_two_lines : ∃ s s', Run {} s ∧ s.o3queue.size = 4 ∧
    answer {} s 0 .read 20 = .ok s' ∧ Loading {} s ∧ Arrives {} 80 64 s s' ∧
    FetchCorrect {} (skip {} 80 (s'.take 80)) (dispatch {} s' 80).1 := by
  let calls : List CoreEvent := [.addInstruction { hthreadid := 0, currTime := 0, ip := 64 },
    .addInstruction { hthreadid := 0, currTime := 0, ip := 128 },
    .addInstruction { hthreadid := 0, currTime := 0, ip := 100 },
    .addInstruction { hthreadid := 0, currTime := 0, ip := 132 }, .processEvent 0,
    .answer 0 .tlbRd 1]
  let s := (follow {} (fun _ _ => True) (init {}) calls).getD (init {})
  have run : Run {} s := (TimelyRun.init.last calls (by decide +kernel)).run
  have out : (s.outstanding[0]?).isSome = true ∧
      ∀ call ∈ s.outstanding[0]?, isFetch call = true ∧ call.lqe.address = 64 := by decide +kernel
  obtain ⟨call, hcall⟩ := Option.isSome_iff_exists.mp out.1
  obtain ⟨isf, address⟩ := out.2 call hcall
  have ends : Contract.Meets (fun _ => False)
    (fun s' => ∀ i < (skip {} 80 (s'.take 80)).o3queue.size,
      ((skip {} 80 (s'.take 80)).o3queue.get i).instr.ip >>> 6 ≠ 0) (answer {} s 0 .read 20) := by
    decide +kernel
  obtain ⟨s', answered, lines⟩ := ends.result
  obtain ⟨-, loading, arrives⟩ := run_fetches run
  have come := arrives 0 20 .read call s' hcall isf (by decide) answered
  rw [address] at come
  have fetched := (run_fetches (run.step (.answer 0 .read 20) answered)).1 80
  exact ⟨s, s', run, by decide +kernel, answered, loading, come,
    fetched.mpr (.inr fun i first => .inl (lines i first.1))⟩

/-- Two instructions at address 0, as the frontend sends them for locks and wake-ups -/
theorem line_zero_fetched_twice : ∃ s, Run {} s ∧
    ¬ FetchCorrect {} (skip {} 0 (s.take 0)) (dispatch {} s 0).1 := by
  have one := (Run.init : Run {} _).step (.addInstruction { hthreadid := 0, currTime := 0 }) rfl
  have two := one.step (.addInstruction { hthreadid := 0, currTime := 0 }) rfl
  refine ⟨_, two, fun correct => ?_⟩
  rcases (dispatch_fetchCorrect_iff (run_consistent two)).mp correct with hungry | told
  · cases hungry
  · rcases told 0 ⟨by decide, rfl, fun j hj => absurd hj (Nat.not_lt_zero j)⟩ with line | last
    · exact line rfl
    · exact last 1 (by decide) (by decide) rfl

end O3Core
end McSim
