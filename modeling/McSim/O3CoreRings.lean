import McSim.O3CorePhases

/-! The rings of a core stay consistent in any order of calls.
The entries are those of the instructions that have entered, in their order, and each access without
an answer belongs to one executing entry. -/

namespace McSim

def O3Rob.fixed (e : O3Rob) : O3Rob :=
  { e with
    state := .invalid, readyTime := 0, memDep := none, instrDep := none, branchDep := none
    rr0 := none, rr1 := none, rr2 := none, rr3 := none }

namespace O3Core

variable {cfg : O3CoreConfig} {s s' s₁ s₂ s₃ : O3Core} {t : Nat}

def history (s : O3Core) : List O3Rob := s.committed ++ s.o3rob.toList

def tags (xs : List O3Instr) : List (Nat × Nat) :=
  xs.zipIdx.flatMap fun p => (parts p.1).map fun k => (p.2, k)

/-- The instructions that have entered or wait to. -/
def received (s : O3Core) : List O3Instr := s.entered ++ s.o3queue.toList.map O3Queue.instr

structure Describes (xs : List O3Instr) (e : O3Rob) : Prop where
  instr : xs[e.serial]? = some e.instr
  memaddr : e.memaddr = e.instr.addr e.part
  writes : e.rw0 = e.instr.rw0 ∧ e.rw1 = e.instr.rw1 ∧ e.rw2 = e.instr.rw2 ∧ e.rw3 = e.instr.rw3

structure Rings (cfg : O3CoreConfig) (s : O3Core) : Prop where
  queueCap : s.o3queue.cap = cfg.o3queueMaxSize
  queueHead : s.o3queue.head < s.o3queue.cap
  queueSize : s.o3queue.size ≤ s.o3queue.cap
  robCap : s.o3rob.cap = cfg.o3robMaxSize
  robHead : s.o3rob.head < s.o3rob.cap
  robSize : s.o3rob.size < s.o3rob.cap
  inOrder : s.received.Sublist s.accepted
  complete : cfg.skipAllInstrs = false → s.received = s.accepted
  tags : s.history.map tag = tags s.entered
  describes : ∀ e ∈ s.history, Describes s.entered e

theorem tags_append (xs : List O3Instr) (x : O3Instr) :
    tags (xs ++ [x]) = tags xs ++ (parts x).map fun k => (xs.length, k) := by
  unfold tags
  rw [List.zipIdx_append, List.flatMap_append]
  simp

theorem fixed_describes {xs : List O3Instr} {e e' : O3Rob} (h : e'.fixed = e.fixed)
    (hd : Describes xs e) : Describes xs e' := by
  have described : Describes xs e.fixed := ⟨hd.instr, hd.memaddr, hd.writes⟩
  rw [← h] at described
  exact ⟨described.instr, described.memaddr, described.writes⟩

/-- The rings are where they were, and of the entries only what changes has changed. -/
structure Touched (s s' : O3Core) : Prop extends SamePlace s s' where
  fixed : ∀ i < s.o3rob.size, (s'.o3rob.get i).fixed = (s.o3rob.get i).fixed
  queueHead : s'.o3queue.head = s.o3queue.head
  queueSize : s'.o3queue.size = s.o3queue.size
  queueCap : s'.o3queue.cap = s.o3queue.cap
  instr : ∀ i < s.o3queue.size, (s'.o3queue.get i).instr = (s.o3queue.get i).instr
  committed : s'.committed = s.committed
  entered : s'.entered = s.entered
  accepted : s'.accepted = s.accepted

theorem Touched.refl (s : O3Core) : Touched s s where
  toSamePlace := SamePlace.refl s
  fixed _ _ := rfl
  queueHead := rfl
  queueSize := rfl
  queueCap := rfl
  instr _ _ := rfl
  committed := rfl
  entered := rfl
  accepted := rfl

theorem Touched.received (h : Touched s s') : s'.received = s.received := by
  unfold O3Core.received RingBuffer.toList
  rw [h.entered, h.queueSize, List.map_map, List.map_map]
  congr 1
  exact List.map_congr_left fun i hi => h.instr i (List.mem_range.mp hi)

theorem Touched.history (h : Touched s s') :
    s'.history.map O3Rob.fixed = s.history.map O3Rob.fixed := by
  unfold O3Core.history RingBuffer.toList
  rw [List.map_append, List.map_append, h.committed, h.size, List.map_map, List.map_map]
  congr 1
  exact List.map_congr_left fun i hi => h.fixed i (List.mem_range.mp hi)

theorem Touched.rings (h : Touched s s') (hr : Rings cfg s) : Rings cfg s' where
  queueCap := h.queueCap.trans hr.queueCap
  queueHead := by
    rw [h.queueHead, h.queueCap]
    exact hr.queueHead
  queueSize := by
    rw [h.queueSize, h.queueCap]
    exact hr.queueSize
  robCap := h.cap.trans hr.robCap
  robHead := by
    rw [h.head, h.cap]
    exact hr.robHead
  robSize := by
    rw [h.size, h.cap]
    exact hr.robSize
  inOrder := by
    rw [h.received, h.accepted]
    exact hr.inOrder
  complete hs := by
    rw [h.received, h.accepted]
    exact hr.complete hs
  tags := by
    have viaFixed : ∀ l : List O3Rob, (l.map O3Rob.fixed).map tag = l.map tag := fun l => by
      rw [List.map_map]
      rfl
    rw [← viaFixed, h.history, viaFixed, h.entered]
    exact hr.tags
  describes e he := by
    rw [h.entered]
    have mem : e.fixed ∈ s.history.map O3Rob.fixed := h.history ▸ List.mem_map_of_mem he
    obtain ⟨e₀, he₀, same⟩ := List.mem_map.mp mem
    exact fixed_describes same.symm (hr.describes e₀ he₀)

def accesses (s : O3Core) : List (Call CorePort) := s.outstanding.filter isAccess

/-- Each executing entry has one access out, and each access belongs to such an entry. -/
structure Awaits (s : O3Core) : Prop where
  one : ∀ i < s.o3rob.size, (s.o3rob.get i).state = .executing →
    s.accesses.countP (fun c => c.lqe.serial == some (s.committed.length + i)) = 1
  entry : ∀ c ∈ s.accesses, ∃ i < s.o3rob.size, (s.o3rob.get i).state = .executing ∧
    c.lqe.robEntry = s.o3rob.slot i ∧ c.lqe.serial = some (s.committed.length + i)

theorem Awaits.congr (h : Awaits s) (place : SamePlace s s')
    (hstate : ∀ i < s.o3rob.size,
      (s'.o3rob.get i).state = .executing ↔ (s.o3rob.get i).state = .executing)
    (ha : s'.accesses = s.accesses) (hc : s'.committed = s.committed) : Awaits s' where
  one i hi he := by
    rw [place.size] at hi
    rw [ha, hc]
    exact h.one i hi ((hstate i hi).mp he)
  entry c hm := by
    obtain ⟨i, hi, he, hs, hn⟩ := h.entry c (ha ▸ hm)
    refine ⟨i, place.size.symm ▸ hi, (hstate i hi).mpr he, ?_, hc.symm ▸ hn⟩
    rw [place.slot]
    exact hs

theorem Awaits.none (h : Awaits s) {n : Nat}
    (hn : ∀ i < s.o3rob.size, n = s.committed.length + i → (s.o3rob.get i).state ≠ .executing) :
    s.accesses.countP (fun c => c.lqe.serial == some n) = 0 := by
  rw [List.countP_eq_zero]
  intro c hc he
  obtain ⟨i, hi, hx, -, hs⟩ := h.entry c hc
  rw [hs] at he
  have : s.committed.length + i = n := by simpa using he
  exact hn i hi this.symm hx

structure Consistent (cfg : O3CoreConfig) (s : O3Core) : Prop where
  rings : Rings cfg s
  awaits : Awaits s

theorem Consistent.congr (h : Consistent cfg s) (ht : Touched s s')
    (hstate : ∀ i < s.o3rob.size,
      (s'.o3rob.get i).state = .executing ↔ (s.o3rob.get i).state = .executing)
    (ha : s'.accesses = s.accesses) : Consistent cfg s' :=
  ⟨ht.rings h.rings, h.awaits.congr ht.toSamePlace hstate ha ht.committed⟩

theorem fetch_not_access {c : Call CorePort} (h : isFetch c = true) : isAccess c = false := by
  unfold isFetch at h
  unfold isAccess
  cases hc : c.callee <;> rw [hc] at h <;> first | rfl | cases h

theorem Fetched.consistent (hf : Fetched cfg s s') (h : Consistent cfg s) : Consistent cfg s' := by
  have rob : s'.o3rob = s.o3rob := hf.same O3Core.o3rob fun _ _ _ => rfl
  have touched : Touched s s' := {
    head := by rw [rob]
    size := by rw [rob]
    cap := by rw [rob]
    fixed := fun i _ => by rw [rob]
    queueHead := hf.head
    queueSize := hf.size
    queueCap := hf.cap
    instr := fun i hi => by
      rcases hf.entry i hi with same | ⟨-, load, -⟩
      · rw [same]
      · rw [load]
    committed := hf.same O3Core.committed fun _ _ _ => rfl
    entered := hf.same O3Core.entered fun _ _ _ => rfl
    accepted := hf.same O3Core.accepted fun _ _ _ => rfl }
  refine h.congr touched (fun i _ => by rw [rob]) ?_
  obtain ⟨calls, ho, hcalls⟩ := hf.calls
  have none : calls.filter isAccess = [] :=
    List.filter_eq_nil_iff.mpr fun c hc => by simp [fetch_not_access (hcalls c hc)]
  unfold accesses
  rw [ho, List.filter_append, none, List.append_nil]

theorem writeRob_touched (hs : s.o3rob.size ≤ s.o3rob.cap) {i : Nat} (hi : i < s.o3rob.size)
    {e : O3Rob} (he : e.fixed = (s.o3rob.get i).fixed) :
    Touched s (s.writeRob (s.o3rob.slot i) e) where
  head := rfl
  size := rfl
  cap := rfl
  fixed j hj := by
    show ((s.o3rob.write (s.o3rob.slot i) e).get j).fixed = _
    rw [RingBuffer.get_write_slot (hi.trans_le hs) (hj.trans_le hs)]
    split
    · rename_i same
      rw [he, same]
    · rfl
  queueHead := rfl
  queueSize := rfl
  queueCap := rfl
  instr _ _ := rfl
  committed := rfl
  entered := rfl
  accepted := rfl

theorem writeRob_get (hs : s.o3rob.size ≤ s.o3rob.cap) {i j : Nat} (hi : i < s.o3rob.size)
    (hj : j < s.o3rob.size) (e : O3Rob) :
    (s.writeRob (s.o3rob.slot i) e).o3rob.get j = if j = i then e else s.o3rob.get j :=
  RingBuffer.get_write_slot (hi.trans_le hs) (hj.trans_le hs)

theorem writeRob_consistent (h : Consistent cfg s) {i : Nat} (hi : i < s.o3rob.size) {e : O3Rob}
    (he : e.fixed = (s.o3rob.get i).fixed) (hn : e.state ≠ .executing)
    (ho : (s.o3rob.get i).state ≠ .executing) :
    Consistent cfg (s.writeRob (s.o3rob.slot i) e) := by
  have hs := h.rings.robSize.le
  refine h.congr (writeRob_touched hs hi he) (fun j hj => ?_) rfl
  rw [writeRob_get hs hi hj]
  split
  · rename_i same
    rw [same]
    exact ⟨fun hx => absurd hx hn, fun hx => absurd hx ho⟩
  · exact Iff.rfl

theorem retry_consistent (h : Consistent cfg s) : Consistent cfg (retry cfg t s) :=
  h.congr ⟨⟨rfl, rfl, rfl⟩, fun _ _ => rfl, rfl, rfl, rfl, fun _ _ => rfl, rfl, rfl, rfl⟩
    (fun _ _ => Iff.rfl) rfl

theorem complete_consistent (h : Consistent cfg s) {i : Nat} (hi : Startable t i s)
    (m : Nat → Bool) (r : Nat) :
    Consistent cfg (({ s with isMigrateReady := m }).complete (s.o3rob.slot i) r) := by
  have ho : (s.o3rob.get i).state ≠ .executing := fun hx => by
    rw [hi.issued] at hx
    cases hx
  have written : Consistent cfg (s.writeRob (s.o3rob.slot i)
      { s.o3rob.get i with state := .completed, readyTime := r }) :=
    writeRob_consistent h hi.lt rfl (fun hx => by cases hx) ho
  exact written.congr ⟨⟨rfl, rfl, rfl⟩, fun _ _ => rfl, rfl, rfl, rfl, fun _ _ => rfl,
    rfl, rfl, rfl⟩
    (fun _ _ => Iff.rfl) rfl

theorem access_consistent (h : Consistent cfg s) {i : Nat} (hi : Startable t i s) :
    Consistent cfg (access cfg t (s.o3rob.slot i) (s.committed.length + i) s) := by
  have hs := h.rings.robSize.le
  have written : Touched s (s.writeRob (s.o3rob.slot i)
      { s.o3rob.get i with state := .executing }) := writeRob_touched hs hi.lt rfl
  obtain ⟨c, isa, entry, serial, eq⟩ : ∃ c : Call CorePort, isAccess c = true ∧
      c.lqe.robEntry = s.o3rob.slot i ∧ c.lqe.serial = some (s.committed.length + i) ∧
      access cfg t (s.o3rob.slot i) (s.committed.length + i) s =
        { s.writeRob (s.o3rob.slot i) { s.o3rob.get i with state := .executing } with
          outstanding := s.outstanding ++ [c] } := by
    unfold access
    dsimp only
    split
    · exact ⟨_, rfl, rfl, rfl, rfl⟩
    · exact ⟨_, rfl, rfl, rfl, rfl⟩
  rw [eq]
  have sent : ∀ s' : O3Core, s'.outstanding = s.outstanding ++ [c] →
    s'.accesses = s.accesses ++ [c] := by
    intro s' ho
    unfold accesses
    rw [ho, List.filter_append, List.filter_cons_of_pos isa, List.filter_nil]
  refine ⟨?_, ?_, ?_⟩
  · exact Touched.rings (s := s) ⟨⟨rfl, rfl, rfl⟩, written.fixed, rfl, rfl, rfl, fun _ _ => rfl,
      rfl, rfl, rfl⟩ h.rings
  · intro j hj hx
    have hx : ((s.writeRob (s.o3rob.slot i)
      { s.o3rob.get i with state := .executing }).o3rob.get j).state = .executing := hx
    rw [writeRob_get hs hi.lt hj] at hx
    rw [sent _ rfl, List.countP_append]
    show s.accesses.countP (fun c => c.lqe.serial == some (s.committed.length + j)) +
      [c].countP (fun c => c.lqe.serial == some (s.committed.length + j)) = 1
    by_cases hji : j = i
    · rw [hji, h.awaits.none fun k _ hk => ?_]
      · rw [List.countP_cons_of_pos (by rw [serial]; exact beq_self_eq_true _)]
        rfl
      · have : k = i := by omega
        rw [this, hi.issued]
        exact fun hx => by cases hx
    · rw [if_neg hji] at hx
      rw [h.awaits.one j hj hx, List.countP_cons_of_neg]
      · rfl
      · rw [serial]
        simp only [beq_iff_eq, Option.some.injEq]
        omega
  · intro c' hc'
    rw [sent _ rfl] at hc'
    show ∃ j < s.o3rob.size, ((s.writeRob (s.o3rob.slot i)
      { s.o3rob.get i with state := .executing }).o3rob.get j).state = .executing ∧
      c'.lqe.robEntry = s.o3rob.slot j ∧ c'.lqe.serial = some (s.committed.length + j)
    rcases List.mem_append.mp hc' with hc' | hc'
    · obtain ⟨j, hj, hx, hrob, hser⟩ := h.awaits.entry c' hc'
      refine ⟨j, hj, ?_, hrob, hser⟩
      rw [writeRob_get hs hi.lt hj]
      split
      · rfl
      · exact hx
    · rw [List.mem_singleton.mp hc']
      refine ⟨i, hi.lt, ?_, entry, serial⟩
      rw [writeRob_get hs hi.lt hi.lt, if_pos rfl]

theorem execute_consistent (h : Consistent cfg s) : Consistent cfg (execute cfg t s) :=
  execute_keeps (fun _ hp => retry_consistent hp)
    (fun _ _ m r hp hi _ _ => complete_consistent hp hi m r)
    (fun _ _ hp hi _ => access_consistent hp hi) h

theorem wake_consistent (h : Consistent cfg s) : Consistent cfg (wake cfg t s) := by
  refine (wake_keeps (fun _ hp => retry_consistent hp) (fun s i j hp _ hj _ _ issued => ?_)
    h.rings.robSize.le h).1
  have ho : (s.o3rob.get j).state ≠ .executing := fun hx => by
    rw [issued] at hx
    cases hx
  exact writeRob_consistent hp hj rfl ho ho

theorem Describes.append {xs : List O3Instr} {e : O3Rob} (h : Describes xs e) (x : O3Instr) :
    Describes (xs ++ [x]) e where
  instr := by
    have lt : e.serial < xs.length := (List.getElem?_eq_some_iff.mp h.instr).1
    rw [List.getElem?_append_left lt]
    exact h.instr
  memaddr := h.memaddr
  writes := h.writes

theorem newEntry_describes (xs : List O3Instr) (x : O3Instr) (d : Deps) (k : Nat)
    (memDep instrDep : Option Nat) :
    Describes (xs ++ [x]) (newEntry cfg t x d xs.length k memDep instrDep) where
  instr := List.getElem?_concat_length
  memaddr := rfl
  writes := ⟨rfl, rfl, rfl, rfl⟩

structure Enters (x : O3Instr) (new : List O3Rob) (s s' : O3Core) : Prop where
  head : s'.o3rob.head = s.o3rob.head
  cap : s'.o3rob.cap = s.o3rob.cap
  size : s'.o3rob.size = s.o3rob.size + (parts x).length
  old : ∀ i < s.o3rob.size, s'.o3rob.get i = s.o3rob.get i
  list : s'.o3rob.toList = s.o3rob.toList ++ new
  tags : new.map tag = (parts x).map fun k => (s.entered.length, k)
  queue : s'.o3queue = (s.o3queue.write s.o3queue.head
    { s.o3queue.slots s.o3queue.head with state := .invalid }).pop
  entered : s'.entered = s.entered ++ [x]
  committed : s'.committed = s.committed
  accepted : s'.accepted = s.accepted
  outstanding : s'.outstanding = s.outstanding

theorem issueInstr_enters (cfg : O3CoreConfig) (t : Nat) (x : O3Instr)
    (h : s.o3rob.size + 3 < s.o3rob.cap) :
    ∃ new, Enters x new s (issueInstr cfg t x s) ∧ ∀ e ∈ new, ∃ k memDep instrDep,
      e = newEntry cfg t x (s.deps t x) s.entered.length k memDep instrDep := by
  obtain ⟨s₁, hp, eq⟩ := issueInstr_parts cfg t x h
  have g := hp.grown
  have queue : s₁.o3queue = s.o3queue := g.same O3Core.o3queue fun _ _ => rfl
  obtain ⟨new, list, htag, hnew⟩ := hp.list
  rw [eq]
  refine ⟨new, ?_, hnew⟩
  exact {
    head := g.head
    cap := g.cap
    size := hp.size
    old := g.old
    list := list
    tags := htag
    queue := by
      rw [← queue]
      rfl
    entered := congrArg (· ++ [x]) g.entered
    committed := g.same O3Core.committed fun _ _ => rfl
    accepted := g.same O3Core.accepted fun _ _ => rfl
    outstanding := g.same O3Core.outstanding fun _ _ => rfl }

theorem Enters.slot {x : O3Instr} {new : List O3Rob} (h : Enters x new s s') (i : Nat) :
    s'.o3rob.slot i = s.o3rob.slot i := by
  rw [RingBuffer.slot, RingBuffer.slot, h.head, h.cap]

theorem Enters.get_new {x : O3Instr} {new : List O3Rob} (h : Enters x new s s') {i : Nat}
    (hi : i < s'.o3rob.size) (old : ¬ i < s.o3rob.size) : s'.o3rob.get i ∈ new := by
  have at_i : s'.o3rob.toList[i]? = some (s'.o3rob.get i) := by
    rw [RingBuffer.toList_getElem?, if_pos hi]
  rw [h.list, List.getElem?_append_right (by simpa using old)] at at_i
  exact List.mem_of_getElem? at_i

theorem Enters.history {x : O3Instr} {new : List O3Rob} (h : Enters x new s s') :
    s'.history = s.history ++ new := by
  unfold O3Core.history
  rw [h.committed, h.list, List.append_assoc]

theorem Enters.received {new : List O3Rob}
    (h : Enters (s.o3queue.slots s.o3queue.head).instr new s s') (hr : Rings cfg s)
    (hq : 0 < s.o3queue.size) : s'.received = s.received := by
  unfold O3Core.received
  rw [h.entered, h.queue, List.append_assoc, List.singleton_append, ← List.map_cons,
    ← RingBuffer.toList_write_pop hr.queueHead hq hr.queueSize]

theorem issueInstr_consistent (h : Consistent cfg s) (hq : 0 < s.o3queue.size)
    (room : s.o3rob.size < cfg.o3robMaxSize - 3) :
    Consistent cfg (issueInstr cfg t (s.o3queue.slots s.o3queue.head).instr s) := by
  have hr := h.rings
  have room : s.o3rob.size + 3 < s.o3rob.cap := by
    rw [hr.robCap]
    omega
  obtain ⟨new, he, hnew⟩ := issueInstr_enters cfg t (s.o3queue.slots s.o3queue.head).instr room
  have received := he.received hr hq
  have few := parts_le (s.o3queue.slots s.o3queue.head).instr
  have size := he.size
  refine ⟨?_, ?_, ?_⟩
  · constructor
    · rw [he.queue]
      exact hr.queueCap
    · rw [he.queue]
      exact Nat.mod_lt _ (Nat.zero_lt_of_lt hr.queueHead)
    · rw [he.queue]
      exact (Nat.sub_le _ _).trans hr.queueSize
    · exact he.cap.trans hr.robCap
    · rw [he.head, he.cap]
      exact hr.robHead
    · rw [he.size, he.cap]
      omega
    · rw [received, he.accepted]
      exact hr.inOrder
    · rw [received, he.accepted]
      exact hr.complete
    · rw [he.history, he.entered, List.map_append, hr.tags, he.tags, tags_append]
    · intro e mem
      rw [he.history] at mem
      rw [he.entered]
      rcases List.mem_append.mp mem with mem | mem
      · exact (hr.describes e mem).append _
      · obtain ⟨k, m, i, rfl⟩ := hnew e mem
        exact newEntry_describes s.entered _ _ k m i
  · intro i hi hexec
    unfold accesses
    rw [he.outstanding, he.committed]
    by_cases old : i < s.o3rob.size
    · rw [he.old i old] at hexec
      exact h.awaits.one i old hexec
    · obtain ⟨k, m, j, hx⟩ := hnew _ (he.get_new hi old)
      rw [hx] at hexec
      cases hexec
  · intro c hc
    unfold accesses at hc
    rw [he.outstanding] at hc
    obtain ⟨i, hi, hexec, hslot, hser⟩ := h.awaits.entry c hc
    refine ⟨i, by omega, ?_, ?_, ?_⟩
    · rw [he.old i hi]
      exact hexec
    · rw [he.slot]
      exact hslot
    · rw [he.committed]
      exact hser

theorem issue_consistent (h : Consistent cfg s) : Consistent cfg (issue cfg t s) :=
  issueLoop_keeps (fun _ hp hq room _ _ => issueInstr_consistent hp hq room) _ h

theorem commitOne_history (h : Rings cfg s) (hs : 0 < s.o3rob.size) :
    s.commitOne.history = s.history := by
  unfold history commitOne
  dsimp only
  rw [List.append_assoc, List.singleton_append]
  congr 1
  exact (RingBuffer.toList_write_pop h.robHead hs h.robSize.le).symm

theorem commitOne_get (h : Rings cfg s) {i : Nat} (hi : i + 1 < s.o3rob.size) :
    s.commitOne.o3rob.get i = s.o3rob.get (i + 1) :=
  RingBuffer.get_write_pop h.robHead (hi.trans h.robSize)

theorem commitOne_slot (i : Nat) : s.commitOne.o3rob.slot i = s.o3rob.slot (i + 1) :=
  RingBuffer.slot_pop

theorem commitOne_consistent (h : Consistent cfg s) (hs : 0 < s.o3rob.size)
    (hd : (s.o3rob.slots s.o3rob.head).done t = true) : Consistent cfg s.commitOne := by
  have hr := h.rings
  have hist := commitOne_history hr hs
  have size : s.commitOne.o3rob.size = s.o3rob.size - 1 := rfl
  have number : ∀ i, s.commitOne.committed.length + i = s.committed.length + (i + 1) := by
    intro i
    show (s.committed ++ [_]).length + i = _
    rw [List.length_append, List.length_singleton]
    omega
  refine ⟨?_, ?_, ?_⟩
  · exact { hr with
      robHead := Nat.mod_lt _ (Nat.zero_lt_of_lt hr.robHead)
      robSize := by
        show s.o3rob.size - 1 < s.o3rob.cap
        exact (Nat.sub_le _ _).trans_lt hr.robSize
      tags := by
        rw [hist]
        exact hr.tags
      describes := by
        rw [hist]
        exact hr.describes }
  · intro i hi hexec
    have hi : i + 1 < s.o3rob.size := by omega
    rw [commitOne_get hr hi] at hexec
    rw [number]
    exact h.awaits.one (i + 1) hi hexec
  · intro c hc
    obtain ⟨i, hi, hexec, hslot, hser⟩ := h.awaits.entry c hc
    cases i with
    | zero =>
      rw [RingBuffer.get, RingBuffer.slot_zero hr.robHead] at hexec
      simp [O3Rob.done, hexec] at hd
    | succ i =>
      refine ⟨i, by omega, ?_, ?_, ?_⟩
      · rw [commitOne_get hr hi]
        exact hexec
      · rw [commitOne_slot]
        exact hslot
      · rw [number]
        exact hser

theorem commit_consistent (h : Consistent cfg s) : Consistent cfg (commit cfg t s) :=
  commit_keeps (fun _ hp => retry_consistent hp) (fun _ hp hs hd => commitOne_consistent hp hs hd) h

theorem skip_consistent (h : Consistent cfg s) : Consistent cfg (skip cfg t s) := by
  have hr := h.rings
  unfold skip
  split
  · rename_i skips
    refine ⟨{ hr with
      queueSize := Nat.zero_le _
      inOrder := ?_
      complete := fun hs => ?_ }, ⟨h.awaits.one, h.awaits.entry⟩⟩
    · refine List.Sublist.trans ?_ hr.inOrder
      exact List.Sublist.append (List.Sublist.refl _) (List.nil_sublist _)
    · rw [hs] at skips
      cases skips
  · exact h

theorem processEvent_consistent (h : Consistent cfg s) :
    Consistent cfg (processEvent cfg s t).1 := by
  have skipped := skip_consistent (t := t) h
  unfold processEvent
  dsimp only
  split
  · exact skipped.congr ⟨⟨rfl, rfl, rfl⟩, fun _ _ => rfl, rfl, rfl, rfl, fun _ _ => rfl,
      rfl, rfl, rfl⟩
      (fun _ _ => Iff.rfl) rfl
  · refine commit_consistent (wake_consistent (execute_consistent (issue_consistent ?_)))
    exact (fetch_fetched skipped.rings.queueSize).1.consistent skipped

theorem addInstruction_consistent (h : Consistent cfg s) (x : Pthread.PtsInstr) :
    Consistent cfg (addInstruction cfg s x).1 := by
  have woken : Touched s { s.wakeUp x.currTime with numInstrs := (s.wakeUp x.currTime).numInstrs + 1 } ∧
      (s.wakeUp x.currTime).o3rob = s.o3rob ∧
        (s.wakeUp x.currTime).outstanding = s.outstanding := by
    unfold wakeUp
    split
    · exact ⟨⟨⟨rfl, rfl, rfl⟩, fun _ _ => rfl, rfl, rfl, rfl, fun _ _ => rfl, rfl, rfl, rfl⟩, rfl,
        rfl⟩
    · exact ⟨⟨⟨rfl, rfl, rfl⟩, fun _ _ => rfl, rfl, rfl, rfl, fun _ _ => rfl, rfl, rfl, rfl⟩, rfl,
        rfl⟩
  obtain ⟨touched, rob, out⟩ := woken
  have counted : Consistent cfg
      { s.wakeUp x.currTime with numInstrs := (s.wakeUp x.currTime).numInstrs + 1 } :=
    h.congr touched (fun i _ => by rw [rob]) (congrArg (List.filter isAccess) out)
  unfold addInstruction
  dsimp only
  split
  · exact counted
  · rename_i full
    have hr := counted.rings
    have room : (s.wakeUp x.currTime).o3queue.size < (s.wakeUp x.currTime).o3queue.cap :=
      hr.queueCap ▸ Nat.not_le.mp full
    refine ⟨{ hr with
      queueSize := room
      inOrder := ?_
      complete := fun hs => ?_ }, ⟨counted.awaits.one, counted.awaits.entry⟩⟩
    · unfold received
      dsimp only
      rw [RingBuffer.toList_push room, List.map_append, ← List.append_assoc]
      exact List.Sublist.append hr.inOrder (List.Sublist.refl _)
    · unfold received
      dsimp only
      rw [RingBuffer.toList_push room, List.map_append, ← List.append_assoc]
      exact congrArg (· ++ [_]) (hr.complete hs)

theorem outstanding_split {n : Nat} {call : Call CorePort} (h : s.outstanding[n]? = some call) :
    ∃ before behind, s.outstanding = before ++ call :: behind ∧
      s.outstanding.eraseIdx n = before ++ behind := by
  obtain ⟨lt, at_n⟩ := List.getElem?_eq_some_iff.mp h
  refine ⟨s.outstanding.take n, s.outstanding.drop (n + 1), ?_, List.eraseIdx_eq_take_drop_succ _ _⟩
  rw [← at_n, List.cons_getElem_drop_succ, List.take_append_drop]

theorem loaded_touched (hs : s.o3queue.size ≤ s.o3queue.cap) {aligned address : Nat} :
    Touched s (loaded cfg s aligned address) := by
  rw [loaded_eq]
  refine { Touched.refl s with
    queueHead := RingBuffer.foldl_modify_head
    queueSize := RingBuffer.foldl_modify_size
    queueCap := RingBuffer.foldl_modify_cap
    instr := fun i hi => ?_ }
  have get := RingBuffer.get_foldl_modify (O3Queue.arrive_arrive cfg aligned address) hs
    (fun i hi => List.mem_range.mp hi) hi
  refine (congrArg O3Queue.instr get).trans ?_
  rw [if_pos (List.mem_range.mpr hi)]
  unfold O3Queue.arrive
  split <;> rfl

theorem addReqEvent_consistent (h : Consistent cfg s) {time : Nat} {lqe : Lqe CorePort}
    (hs : addReqEvent cfg s time lqe = .ok s') :
    Consistent cfg s' ∧ s'.o3rob = s.o3rob ∧ s'.committed = s.committed := by
  have resent : ∀ (s₁ : O3Core) (call : Call CorePort), isFetch call = true →
      s₁.outstanding = s.outstanding ++ [call] → Touched s s₁ → s₁.o3rob = s.o3rob →
      Consistent cfg s₁ ∧ s₁.o3rob = s.o3rob ∧ s₁.committed = s.committed := by
    intro s₁ call isf out touched rob
    refine ⟨h.congr touched (fun i _ => by rw [rob]) ?_, rob, touched.committed⟩
    unfold accesses
    rw [out, List.filter_append, List.filter_cons_of_neg (by simp [fetch_not_access isf]),
      List.filter_nil, List.append_nil]
  rcases addReqEvent_cases hs with ⟨nacks, delay, rfl⟩ | rfl
  · exact resent _ _ rfl rfl
      ⟨⟨rfl, rfl, rfl⟩, fun _ _ => rfl, rfl, rfl, rfl, fun _ _ => rfl, rfl, rfl, rfl⟩ rfl
  · have loaded : Touched s (loaded cfg s (ceilByY time cfg.processInterval) lqe.address) :=
      loaded_touched h.rings.queueSize
    exact ⟨h.congr loaded (fun i _ => by rw [loaded_rob])
      (congrArg (List.filter isAccess) loaded_outstanding), loaded_rob, loaded.committed⟩

theorem Awaits.again (h : Awaits s) (place : SamePlace s s')
    (hget : ∀ i < s.o3rob.size, s'.o3rob.get i = s.o3rob.get i)
    (hc : s'.committed = s.committed) {before behind : List (Call CorePort)} {c c' : Call CorePort}
    (ha : s.accesses = before ++ c :: behind) (ha' : s'.accesses = before ++ behind ++ [c'])
    (serial : c'.lqe.serial = c.lqe.serial) (robEntry : c'.lqe.robEntry = c.lqe.robEntry) :
    Awaits s' where
  one i hi he := by
    rw [place.size] at hi
    rw [hget i hi] at he
    have one := h.one i hi he
    rw [ha] at one
    rw [ha', hc]
    simp only [List.countP_append, List.countP_cons, List.countP_nil, serial] at one ⊢
    omega
  entry d hd := by
    have found : ∀ d ∈ s.accesses, ∃ i < s'.o3rob.size, (s'.o3rob.get i).state = .executing ∧
        d.lqe.robEntry = s'.o3rob.slot i ∧ d.lqe.serial = some (s'.committed.length + i) := by
      intro d hd
      obtain ⟨i, hi, he, hr, hs⟩ := h.entry d hd
      rw [place.size, hc]
      refine ⟨i, hi, ?_, ?_, hs⟩
      · rw [hget i hi]
        exact he
      · rw [place.slot]
        exact hr
    rw [ha'] at hd
    rw [ha] at found
    rcases List.mem_append.mp hd with hd | hd
    · refine found d ?_
      rcases List.mem_append.mp hd with hd | hd
      · exact List.mem_append_left _ hd
      · exact List.mem_append_right _ (List.mem_cons_of_mem _ hd)
    · rw [List.mem_singleton.mp hd, serial, robEntry]
      exact found c (List.mem_append_right _ List.mem_cons_self)

theorem Awaits.finish (h : Awaits s) (place : SamePlace s s') {i : Nat} (hi : i < s.o3rob.size)
    (hx : (s.o3rob.get i).state = .executing) (hn : (s'.o3rob.get i).state ≠ .executing)
    (hget : ∀ j < s.o3rob.size, j ≠ i → s'.o3rob.get j = s.o3rob.get j)
    (hc : s'.committed = s.committed) {before behind : List (Call CorePort)} {c : Call CorePort}
    (serial : c.lqe.serial = some (s.committed.length + i))
    (ha : s.accesses = before ++ c :: behind) (ha' : s'.accesses = before ++ behind) :
    Awaits s' where
  one j hj he := by
    rw [place.size] at hj
    by_cases hji : j = i
    · exact absurd (hji ▸ he) hn
    · rw [hget j hj hji] at he
      have one := h.one j hj he
      rw [ha] at one
      rw [ha', hc]
      have other : ¬ s.committed.length + i = s.committed.length + j := by omega
      simp only [List.countP_append, List.countP_cons, serial, beq_iff_eq, Option.some.injEq,
        other, if_false, Nat.add_zero] at one ⊢
      exact one
  entry d hd := by
    rw [ha'] at hd
    have mem : d ∈ s.accesses := by
      rw [ha]
      rcases List.mem_append.mp hd with hd | hd
      · exact List.mem_append_left _ hd
      · exact List.mem_append_right _ (List.mem_cons_of_mem _ hd)
    obtain ⟨j, hj, he, hr, hs⟩ := h.entry d mem
    rw [place.size, hc]
    by_cases hji : j = i
    · have one := h.one i hi hx
      rw [hji] at hs
      have more : 0 < (before ++ behind).countP
          (fun c => c.lqe.serial == some (s.committed.length + i)) :=
        List.countP_pos_iff.mpr ⟨d, hd, by rw [hs]; exact beq_self_eq_true _⟩
      rw [ha] at one
      rw [List.countP_append] at more
      simp only [List.countP_append, List.countP_cons, serial, beq_self_eq_true, if_true] at one
      omega
    · refine ⟨j, hj, ?_, ?_, hs⟩
      · rw [hget j hj hji]
        exact he
      · rw [place.slot]
        exact hr

/-- What an answer to an access does: at most the entry that sent it is completed. -/
structure Reaches (call : Call CorePort) (s s' : O3Core) : Prop where
  queue : s'.o3queue = s.o3queue
  committed : s'.committed = s.committed
  entry : ∃ i < s.o3rob.size, (s.o3rob.get i).state = .executing ∧
    call.lqe.robEntry = s.o3rob.slot i ∧ call.lqe.serial = some (s.committed.length + i) ∧
    (s'.o3rob = s.o3rob ∨ ∃ r, s'.o3rob.toList =
      s.o3rob.toList.set i { s.o3rob.get i with state := .completed, readyTime := r })

theorem addRepEvent_consistent (h : Consistent cfg s) {n time : Nat} {type : EventType}
    {call : Call CorePort} (hcall : s.outstanding[n]? = some call) (isa : isAccess call = true)
    (hs : addRepEvent cfg (s.answered n) time { call.lqe with type } = .ok s') : Consistent cfg s' ∧
      Reaches call s s' := by
  obtain ⟨before, behind, out, rest⟩ := outstanding_split hcall
  have accesses : s.accesses = before.filter isAccess ++ call :: behind.filter isAccess := by
    unfold O3Core.accesses
    rw [out, List.filter_append, List.filter_cons_of_pos isa]
  obtain ⟨i, hi, hx, entry, serial⟩ := h.awaits.entry call (by
    rw [accesses]
    exact List.mem_append_right _ List.mem_cons_self)
  have resent : ∀ (s₁ : O3Core) (c : Call CorePort), isAccess c = true →
      c.lqe.serial = call.lqe.serial → c.lqe.robEntry = call.lqe.robEntry →
      s₁.outstanding = s.outstanding.eraseIdx n ++ [c] → Touched s s₁ → s₁.o3rob = s.o3rob →
      s₁.o3queue = s.o3queue → Consistent cfg s₁ ∧ Reaches call s s₁ := by
    intro s₁ c isc hser hrob ho touched rob queue
    refine ⟨⟨touched.rings h.rings, h.awaits.again touched.toSamePlace (fun j _ => by rw [rob])
      touched.committed accesses ?_ hser hrob⟩, queue, touched.committed,
      i, hi, hx, entry, serial, .inl rob⟩
    unfold O3Core.accesses
    rw [ho, rest, List.filter_append, List.filter_append, List.filter_cons_of_pos isc,
      List.filter_nil]
  rcases addRepEvent_cases hs with ⟨nacks, kind, delay, rfl⟩ | ⟨r, -, rfl⟩
  · refine resent _ _ ?_ ?_ ?_ rfl
      ⟨⟨rfl, rfl, rfl⟩, fun _ _ => rfl, rfl, rfl, rfl, fun _ _ => rfl, rfl, rfl,
        rfl⟩ rfl rfl <;> rfl
  · rw [entry, Int.toNat_natCast]
    have size := h.rings.robSize.le
    have written : Touched s (s.writeRob (s.o3rob.slot i)
        { s.o3rob.get i with state := .completed, readyTime := r }) :=
      writeRob_touched size hi rfl
    have get : ∀ j < s.o3rob.size, _ := fun j hj => writeRob_get size hi hj
      { s.o3rob.get i with state := .completed, readyTime := r }
    refine ⟨⟨Touched.rings (s := s) { written with } h.rings, ?_⟩, rfl, rfl, i, hi, hx, entry,
      serial, .inr ⟨r, RingBuffer.toList_write hi size⟩⟩
    refine h.awaits.finish ⟨rfl, rfl, rfl⟩ hi hx ?_ (fun j hj hji => ?_) rfl serial accesses ?_
    · exact fun hn => by
        have hn : ((s.writeRob (s.o3rob.slot i) { s.o3rob.get i with
          state := .completed, readyTime := r }).o3rob.get i).state = .executing := hn
        rw [get i hi, if_pos rfl] at hn
        cases hn
    · exact (get j hj).trans (if_neg hji)
    · show (s.outstanding.eraseIdx n).filter isAccess = _
      rw [rest, List.filter_append]

theorem answer_consistent (h : Consistent cfg s) {n time : Nat} {type : EventType}
    (hs : answer cfg s n type time = .ok s') : Consistent cfg s' ∧ s'.committed = s.committed ∧
      ∀ call, s.outstanding[n]? = some call →
        if isAccess call then Reaches call s s' else s'.o3rob = s.o3rob := by
  obtain ⟨call, hcall, ⟨isf, hs⟩ | ⟨isa, hs⟩⟩ := answer_cases hs
  · obtain ⟨before, behind, out, rest⟩ := outstanding_split hcall
    have erased : Consistent cfg (s.answered n) := by
      refine h.congr ⟨⟨rfl, rfl, rfl⟩, fun _ _ => rfl, rfl, rfl, rfl, fun _ _ => rfl, rfl, rfl, rfl⟩
        (fun _ _ => Iff.rfl) ?_
      unfold accesses answered
      dsimp only
      rw [rest, out, List.filter_append, List.filter_append,
        List.filter_cons_of_neg (by simp [fetch_not_access isf])]
    obtain ⟨consistent, rob, committed⟩ := addReqEvent_consistent erased hs
    refine ⟨consistent, committed, fun c hc => ?_⟩
    cases hcall.symm.trans hc
    rw [fetch_not_access isf]
    exact rob
  · obtain ⟨consistent, reaches⟩ := addRepEvent_consistent h hcall isa hs
    refine ⟨consistent, reaches.committed, fun c hc => ?_⟩
    cases hcall.symm.trans hc
    rw [isa]
    exact reaches

theorem Consistent.of_same (h : Consistent cfg s) (queue : s'.o3queue = s.o3queue)
    (rob : s'.o3rob = s.o3rob) (out : s'.outstanding = s.outstanding)
    (committed : s'.committed = s.committed) (entered : s'.entered = s.entered)
    (accepted : s'.accepted = s.accepted) : Consistent cfg s' :=
  h.congr ⟨⟨by rw [rob], by rw [rob], by rw [rob]⟩, fun i _ => by rw [rob], by rw [queue],
    by rw [queue], by rw [queue], fun i _ => by rw [queue], committed, entered, accepted⟩
    (fun i _ => by rw [rob]) (congrArg (List.filter isAccess) out)

theorem step_consistent (h : Consistent cfg s) {e : CoreEvent} (hs : step cfg s e = .ok s') :
    Consistent cfg s' := by
  cases e with
  | addInstruction x =>
    cases hs
    exact addInstruction_consistent h x
  | setActive isActive =>
    cases hs
    exact h.of_same rfl rfl rfl rfl rfl rfl
  | processEvent t =>
    cases hs
    exact processEvent_consistent (h.of_same rfl rfl rfl rfl rfl rfl)
  | answer n type time => exact (answer_consistent h hs).1
  | migrate isMigrateReady =>
    cases hs
    exact h.of_same rfl rfl rfl rfl rfl rfl
  | advance t =>
    cases hs
    exact h.of_same rfl rfl rfl rfl rfl rfl

theorem init_consistent (cfg : O3CoreConfig) : Consistent cfg (init cfg) where
  rings := {
    queueCap := rfl
    queueHead := Nat.succ_pos _
    queueSize := Nat.zero_le _
    robCap := rfl
    robHead := Nat.zero_lt_of_lt cfg.robSize
    robSize := Nat.zero_lt_of_lt cfg.robSize
    inOrder := List.Sublist.refl _
    complete := fun _ => rfl
    tags := rfl
    describes := fun _ he => absurd he List.not_mem_nil }
  awaits := {
    one := fun _ hi => absurd hi (Nat.not_lt_zero _)
    entry := fun _ hc => absurd hc List.not_mem_nil }

theorem run_consistent (h : Run cfg s) : Consistent cfg s := by
  induction h with
  | init => exact init_consistent cfg
  | step e _ hs ih => exact step_consistent ih hs

end O3Core
end McSim
