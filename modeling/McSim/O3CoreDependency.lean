import McSim.O3CoreHistory
import McSim.O3CoreNamed

/-! Who has to be done before whom.
An entry waits for each of its producers that is not done, or for a younger entry that has the same
producer. The one exception is an access to the word at address 0: an entry without a memory access
has address 0 too and hides the older accesses to that word. -/

namespace McSim

def O3Instr.sources (x : O3Instr) : List Nat := [x.rr0, x.rr1, x.rr2, x.rr3]

namespace O3Core

variable {cfg : O3CoreConfig} {s s' s₀ s₁ : O3Core} {t : Nat}

/-- Among the entries `f`, number `i` is an earlier part of the same instruction as number `j`, a
mispredicted branch, an access to the same word, or of the last instruction to write a source. -/
def Produces (f : Nat → O3Rob) (i j : Nat) : Prop :=
  i < j ∧ ((f i).serial = (f j).serial ∨ (f i).branchMiss = true ∨
    ((f i).memaddr ≠ 0 ∧ (f j).memaddr ≠ 0 ∧
      (f i).memaddr >>> wordLog = (f j).memaddr >>> wordLog) ∨
    ∃ rr ∈ (f j).instr.sources, (f i).isRegDep rr = true ∧ (f i).serial < (f j).serial ∧
      ∀ m, i < m → m < j → (f m).serial < (f j).serial → (f m).isRegDep rr = true →
        (f m).serial = (f i).serial)

/-- The youngest access in flight to the word at 0 has an entry without access in flight behind
it. -/
def Shadowed (t : Nat) (s : O3Core) : Prop :=
  ∃ j < s.o3rob.size, (s.o3rob.get j).done t = false ∧ (s.o3rob.get j).memaddr = 0 ∧
    (∃ i < j, (s.o3rob.get i).done t = false ∧ (s.o3rob.get i).memaddr ≠ 0 ∧
      (s.o3rob.get i).memaddr >>> wordLog = 0) ∧
    ∀ m < s.o3rob.size, j < m → (s.o3rob.get m).done t = false →
      (s.o3rob.get m).memaddr >>> wordLog ≠ 0

instance : Decidable (Shadowed t s) :=
  inferInstanceAs (Decidable (∃ j < s.o3rob.size, _ ∧ _ ∧ (∃ i < j, _) ∧
    ∀ m < s.o3rob.size, j < m → _ → _))

def Clear (t : Nat) (s : O3Core) (x : O3Instr) : Prop :=
  (∃ k < 3, x.addr k ≠ 0 ∧ x.addr k >>> wordLog = 0) → ¬ Shadowed t s

instance (x : O3Instr) : Decidable (Clear t s x) :=
  inferInstanceAs (Decidable ((∃ k < 3, x.addr k ≠ 0 ∧ x.addr k >>> wordLog = 0) → ¬ Shadowed t s))

def IssueClear (cfg : O3CoreConfig) (t : Nat) : Nat → O3Core → Prop
  | 0, _ => True
  | n + 1, s =>
    0 < s.o3queue.size ∧ s.o3rob.size < cfg.o3robMaxSize - 3 →
      ((s.o3queue.slots s.o3queue.head).state = .ready ∧
        (s.o3queue.slots s.o3queue.head).readyTime ≤ t →
          Clear t s (s.o3queue.slots s.o3queue.head).instr) ∧
      IssueClear cfg t n (issueOne cfg t s)

instance decidableIssueClear (cfg : O3CoreConfig) (t : Nat) :
    ∀ n s, Decidable (IssueClear cfg t n s)
  | 0, _ => isTrue trivial
  | n + 1, s =>
    have := decidableIssueClear cfg t n (issueOne cfg t s)
    inferInstanceAs (Decidable (_ ∧ _ → (_ ∧ _ → Clear t s _) ∧ IssueClear cfg t n _))

def beforeIssue (cfg : O3CoreConfig) (t : Nat) (s : O3Core) : O3Core :=
  fetch cfg t (skip cfg t (s.take t))

def StepClear (cfg : O3CoreConfig) (s : O3Core) : CoreEvent → Prop
  | .processEvent t => (skip cfg t s).hungry cfg = false →
      IssueClear cfg t cfg.maxIssueWidth (beforeIssue cfg t s)
  | _ => True

instance (s : O3Core) : DecidablePred (StepClear cfg s)
  | .processEvent t => inferInstanceAs (Decidable ((skip cfg t s).hungry cfg = false →
      IssueClear cfg t cfg.maxIssueWidth (beforeIssue cfg t s)))
  | .addInstruction _ | .setActive _ | .answer .. | .migrate _ | .advance _ => isTrue trivial

theorem fixed_same {e e' : O3Rob} (h : e'.fixed = e.fixed) : e'.serial = e.serial ∧
    e'.memaddr = e.memaddr ∧ e'.branchMiss = e.branchMiss ∧ e'.instr = e.instr ∧
    ∀ rr, e'.isRegDep rr = e.isRegDep rr := by
  have field : ∀ {α : Type} (f : O3Rob → α), (∀ e, f e = f e.fixed) → f e' = f e := by
    intro α f hf
    rw [hf e', hf e, h]
  exact ⟨field O3Rob.serial fun _ => rfl, field O3Rob.memaddr fun _ => rfl,
    field O3Rob.branchMiss fun _ => rfl, field O3Rob.instr fun _ => rfl,
    fun rr => field (O3Rob.isRegDep rr) fun _ => rfl⟩

theorem produces_iff {f g : Nat → O3Rob} {i j k : Nat}
    (hfg : ∀ m, i ≤ m → m ≤ j → (g (m + k)).fixed = (f m).fixed) :
    Produces g (i + k) (j + k) ↔ Produces f i j := by
  unfold Produces
  rw [Nat.add_lt_add_iff_right]
  refine and_congr_right fun hij => ?_
  obtain ⟨serial, memaddr, miss, -, writes⟩ := fixed_same (hfg i le_rfl hij.le)
  obtain ⟨serial', memaddr', -, instr, -⟩ := fixed_same (hfg j hij.le le_rfl)
  rw [serial, memaddr, miss, serial', memaddr', instr]
  refine or_congr_right (or_congr_right (or_congr_right (exists_congr fun rr => ?_)))
  rw [writes]
  refine and_congr_right fun _ => and_congr_right fun _ => and_congr_right fun _ => ?_
  constructor
  · intro last m hi hj
    obtain ⟨serial, -, -, -, writes⟩ := fixed_same (hfg m hi.le hj.le)
    have shifted := last (m + k) (Nat.add_lt_add_right hi k) (Nat.add_lt_add_right hj k)
    rwa [serial, writes] at shifted
  · intro last n hi hj
    obtain ⟨m, rfl⟩ : ∃ m, n = m + k := ⟨n - k, by omega⟩
    have hi : i < m := Nat.lt_of_add_lt_add_right hi
    have hj : m < j := Nat.lt_of_add_lt_add_right hj
    obtain ⟨serial, -, -, -, writes⟩ := fixed_same (hfg m hi.le hj.le)
    rw [serial, writes]
    exact last m hi hj

theorem Produces.congr {f g : Nat → O3Rob} {i j : Nat}
    (hfg : ∀ m ≤ j, (g m).fixed = (f m).fixed) (h : Produces f i j) : Produces g i j :=
  (produces_iff (k := 0) fun m _ hj => hfg m hj).mpr h

/-- Entry `j` waits for its producer `i`, or for one between them with the same producer. -/
def Held (s : O3Core) (e : O3Rob) (i j : Nat) : Prop :=
  e.waitsFor (s.o3rob.slot i) ∨
    ∃ m, i < m ∧ m < j ∧ e.waitsFor (s.o3rob.slot m) ∧ Produces s.o3rob.get i m

structure Ordered (t : Nat) (s : O3Core) : Prop where
  committed : ∀ e ∈ s.committed, e.done t = true
  waits : ∀ j < s.o3rob.size, (s.o3rob.get j).state = .issued → ∀ i, Produces s.o3rob.get i j →
    (s.o3rob.get i).done t = true ∨ Held s (s.o3rob.get j) i j
  started : ∀ j < s.o3rob.size, (s.o3rob.get j).state ≠ .issued → ∀ i, Produces s.o3rob.get i j →
    (s.o3rob.get i).done t = true

theorem Ordered.congr (h : Ordered t s) (place : SamePlace s s')
    (hget : ∀ j < s.o3rob.size, s'.o3rob.get j = s.o3rob.get j)
    (committed : s'.committed = s.committed) : Ordered t s' := by
  have same : ∀ {i j}, j < s.o3rob.size →
      (Produces s'.o3rob.get i j ↔ Produces s.o3rob.get i j) := fun hj =>
    produces_iff (k := 0) fun m _ hm => congrArg O3Rob.fixed (hget m (hm.trans_lt hj))
  constructor
  · rw [committed]
    exact h.committed
  · intro j hj hx i hp
    rw [place.size] at hj
    have produced := (same hj).mp hp
    rw [hget i (produced.1.trans hj), hget j hj]
    rw [hget j hj] at hx
    refine (h.waits j hj hx i produced).imp_right ?_
    rintro (hw | ⟨m, him, hmj, hw, hpm⟩)
    · exact .inl (by rw [place.slot]; exact hw)
    · exact .inr ⟨m, him, hmj, by rw [place.slot]; exact hw, (same (hmj.trans hj)).mpr hpm⟩
  · intro j hj hx i hp
    rw [place.size] at hj
    have produced := (same hj).mp hp
    rw [hget i (produced.1.trans hj)]
    rw [hget j hj] at hx
    exact h.started j hj hx i produced

theorem Ordered.of_same (h : Ordered t s) (rob : s'.o3rob = s.o3rob)
    (committed : s'.committed = s.committed) : Ordered t s' :=
  h.congr ⟨by rw [rob], by rw [rob], by rw [rob]⟩ (fun j _ => by rw [rob]) committed

theorem done_later {e : O3Rob} {u : Nat} (hu : t ≤ u) (h : e.done t = true) : e.done u = true := by
  rw [O3Rob.done_iff] at h ⊢
  exact ⟨h.1, h.2.trans hu⟩

theorem Ordered.later (h : Ordered t s) {u : Nat} (hu : t ≤ u) : Ordered u s where
  committed e he := done_later hu (h.committed e he)
  waits j hj hx i hp := (h.waits j hj hx i hp).imp_left (done_later hu)
  started j hj hx i hp := done_later hu (h.started j hj hx i hp)

theorem Ordered.write (h : Ordered t s) (hs : s.o3rob.size ≤ s.o3rob.cap) {k : Nat}
    (hk : k < s.o3rob.size) {e : O3Rob} (he : e.fixed = (s.o3rob.get k).fixed)
    (hd : (s.o3rob.get k).done t = true → e.done t = true)
    (hw : e.state = .issued → ∀ i, Produces s.o3rob.get i k →
      (s.o3rob.get i).done t = true ∨ Held s e i k)
    (hn : e.state ≠ .issued → ∀ i, Produces s.o3rob.get i k → (s.o3rob.get i).done t = true) :
    Ordered t (s.writeRob (s.o3rob.slot k) e) := by
  have get := fun j (hj : j < s.o3rob.size) => writeRob_get hs hk hj e
  have fixed : ∀ j < s.o3rob.size,
      ((s.writeRob (s.o3rob.slot k) e).o3rob.get j).fixed = (s.o3rob.get j).fixed := by
    intro j hj
    rw [get j hj]
    split
    · rename_i same
      rw [he, same]
    · rfl
  have done : ∀ j < s.o3rob.size, (s.o3rob.get j).done t = true →
      ((s.writeRob (s.o3rob.slot k) e).o3rob.get j).done t = true := by
    intro j hj hdone
    rw [get j hj]
    split
    · rename_i same
      exact hd (same ▸ hdone)
    · exact hdone
  have back : ∀ {i j : Nat}, j < s.o3rob.size →
      Produces (s.writeRob (s.o3rob.slot k) e).o3rob.get i j → Produces s.o3rob.get i j :=
    fun hj hp => hp.congr fun m hm => (fixed m (hm.trans_lt hj)).symm
  have held : ∀ {x : O3Rob} {i j : Nat}, j < s.o3rob.size → Held s x i j →
      Held (s.writeRob (s.o3rob.slot k) e) x i j := by
    rintro x i j hj (hx | ⟨m, him, hmj, hx, hp⟩)
    · exact .inl hx
    · exact .inr ⟨m, him, hmj, hx, hp.congr fun n hnm => fixed n (hnm.trans_lt (hmj.trans hj))⟩
  constructor
  · exact h.committed
  · intro j hj hx i hp
    have hj : j < s.o3rob.size := hj
    have produced := back hj hp
    have hi : i < s.o3rob.size := hp.1.trans hj
    have was : (s.o3rob.get i).done t = true ∨
        Held s ((s.writeRob (s.o3rob.slot k) e).o3rob.get j) i j := by
      rw [get j hj] at hx ⊢
      split at hx
      · rename_i same
        subst same
        rw [if_pos rfl]
        exact hw hx i produced
      · rename_i other
        rw [if_neg other]
        exact h.waits j hj hx i produced
    exact was.imp (done i hi) (held hj)
  · intro j hj hx i hp
    have hj : j < s.o3rob.size := hj
    have produced := back hj hp
    refine done i (hp.1.trans hj) ?_
    rw [get j hj] at hx
    split at hx
    · rename_i same
      subst same
      exact hn hx i produced
    · exact h.started j hj hx i produced

theorem Ordered.startable (h : Ordered t s) {j : Nat} (hj : Startable t j s) (i : Nat)
    (hp : Produces s.o3rob.get i j) : (s.o3rob.get i).done t = true := by
  rcases hj.free with rfl | free
  · exact absurd hp.1 (Nat.not_lt_zero i)
  · have none := O3Rob.free_iff.mp free
    rcases h.waits j hj.lt hj.issued i hp with hd | hw | ⟨m, -, -, hw, -⟩
    · exact hd
    · exact absurd hw (none _)
    · exact absurd hw (none _)

theorem not_issued_done {e : O3Rob} (h : e.state = .issued) : e.done t = false := by
  unfold O3Rob.done
  rw [h]
  rfl

theorem Ordered.start (h : Ordered t s) (hs : s.o3rob.size ≤ s.o3rob.cap) {k : Nat}
    (hk : Startable t k s) {e : O3Rob} (he : e.fixed = (s.o3rob.get k).fixed)
    (hx : e.state ≠ .issued) : Ordered t (s.writeRob (s.o3rob.slot k) e) := by
  refine h.write hs hk.lt he (fun hd => ?_) (fun hi => absurd hi hx) fun _ => h.startable hk
  rw [not_issued_done hk.issued] at hd
  cases hd

theorem Ordered.execute (h : Ordered t s) (hs : s.o3rob.size ≤ s.o3rob.cap) :
    Ordered t (execute cfg t s) := by
  refine (execute_keeps (P := fun s₁ => Ordered t s₁ ∧ s₁.o3rob.size ≤ s₁.o3rob.cap)
    (fun s₁ hp => ⟨hp.1.of_same rfl rfl, hp.2⟩) (fun s₁ i m r hp hi _ _ => ?_)
    (fun s₁ i hp hi _ => ?_) ⟨h, hs⟩).1
  · have written : Ordered t (s₁.writeRob (s₁.o3rob.slot i)
        { s₁.o3rob.get i with state := .completed, readyTime := r }) :=
      hp.1.start hp.2 hi rfl fun hx => by cases hx
    exact ⟨written.of_same rfl rfl, hp.2⟩
  · have written : Ordered t (s₁.writeRob (s₁.o3rob.slot i)
        { s₁.o3rob.get i with state := .executing }) :=
      hp.1.start hp.2 hi rfl fun hx => by cases hx
    unfold access
    dsimp only
    split
    · exact ⟨written.of_same rfl rfl, hp.2⟩
    · exact ⟨written.of_same rfl rfl, hp.2⟩

theorem Ordered.clear (h : Ordered t s) (hs : s.o3rob.size ≤ s.o3rob.cap) {i j : Nat}
    (hij : i < j) (hj : j < s.o3rob.size) (hw : Wakes t i s)
    (issued : (s.o3rob.get j).state = .issued) :
    Ordered t (s.writeRob (s.o3rob.slot j) ((s.o3rob.get j).clear (s.o3rob.slot i))) := by
  have bound : ∀ n < j, n < s.o3rob.cap := fun n hn => (hn.trans hj).trans_le hs
  have awake : (s.o3rob.get i).done t = true := O3Rob.done_iff.mpr ⟨hw.1, hw.2.le⟩
  have started : (s.o3rob.get i).state ≠ .issued := fun hx => by
    rw [hw.1] at hx
    cases hx
  have same : ∀ n < j, s.o3rob.slot n = s.o3rob.slot i → n = i := fun n hn he =>
    RingBuffer.slot_inj (bound n hn) (bound i hij) he
  refine h.write hs hj rfl (fun hd => ?_) (fun _ n hp => ?_) fun hn => absurd issued hn
  · rw [not_issued_done issued] at hd
    cases hd
  · rcases h.waits j hj issued n hp with hd | hk | ⟨m, hnm, hmj, hk, hpm⟩
    · exact .inl hd
    · by_cases he : s.o3rob.slot n = s.o3rob.slot i
      · obtain rfl := same n hp.1 he
        exact .inl awake
      · exact .inr (.inl (O3Rob.waitsFor_clear.mpr ⟨hk, he⟩))
    · by_cases he : s.o3rob.slot m = s.o3rob.slot i
      · obtain rfl := same m hmj he
        exact .inl (h.started m (hij.trans hj) started n hpm)
      · exact .inr (.inr ⟨m, hnm, hmj, O3Rob.waitsFor_clear.mpr ⟨hk, he⟩, hpm⟩)

theorem Ordered.wake (h : Ordered t s) (hs : s.o3rob.size ≤ s.o3rob.cap) :
    Ordered t (wake cfg t s) :=
  (wake_keeps (fun _ hp => hp.of_same rfl rfl)
    (fun _ _ _ hp hij hj hs₁ hw issued => hp.clear hs₁ hij hj hw issued) hs h).1

theorem Ordered.commitOne (h : Ordered t s) (hr : Rings cfg s)
    (hd : (s.o3rob.slots s.o3rob.head).done t = true) : Ordered t s.commitOne := by
  have get : ∀ {n}, n < s.commitOne.o3rob.size →
      s.commitOne.o3rob.get n = s.o3rob.get (n + 1) := fun hn =>
    commitOne_get hr (Nat.add_lt_of_lt_sub hn)
  have shift : ∀ {i j}, j < s.commitOne.o3rob.size →
      (Produces s.o3rob.get (i + 1) (j + 1) ↔ Produces s.commitOne.o3rob.get i j) := fun hj =>
    produces_iff fun m _ hm => by rw [get (hm.trans_lt hj)]
  constructor
  · intro e he
    rcases List.mem_append.mp he with he | he
    · exact h.committed e he
    · rw [List.mem_singleton.mp he]
      exact hd
  · intro j hj hx i hp
    rw [get (hp.1.trans hj), get hj]
    rw [get hj] at hx
    refine (h.waits (j + 1) (Nat.add_lt_of_lt_sub hj) hx (i + 1) ((shift hj).mpr hp)).imp_right ?_
    rintro (hk | ⟨m, him, hmj, hk, hpm⟩)
    · exact .inl (by rw [commitOne_slot]; exact hk)
    · obtain ⟨n, rfl⟩ : ∃ n, m = n + 1 := ⟨m - 1, by omega⟩
      have hnj : n < j := Nat.lt_of_succ_lt_succ hmj
      refine .inr ⟨n, Nat.lt_of_succ_lt_succ him, hnj, ?_, (shift (hnj.trans hj)).mp hpm⟩
      rw [commitOne_slot]
      exact hk
  · intro j hj hx i hp
    rw [get (hp.1.trans hj)]
    rw [get hj] at hx
    exact h.started (j + 1) (Nat.add_lt_of_lt_sub hj) hx (i + 1) ((shift hj).mpr hp)

structure Entering (x : O3Instr) (s₀ : O3Core) (dep : Option Nat) (s : O3Core) : Prop where
  size : s₀.o3rob.size ≤ s.o3rob.size
  slot : ∀ i, s.o3rob.slot i = s₀.o3rob.slot i
  old : ∀ i < s₀.o3rob.size, s.o3rob.get i = s₀.o3rob.get i
  entered : s.entered = s₀.entered
  serial : ∀ i < s.o3rob.size, s₀.o3rob.size ≤ i → (s.o3rob.get i).serial = s₀.entered.length
  access : x.noMem = false → ∀ i < s.o3rob.size, s₀.o3rob.size ≤ i → (s.o3rob.get i).memaddr ≠ 0
  last : s₀.o3rob.size < s.o3rob.size → dep = some (s.o3rob.slot (s.o3rob.size - 1))

theorem youngest_names {r : RingBuffer O3Rob} (p : O3Rob → Bool) {i : Nat} (hi : i < r.size)
    (hp : p (r.get i) = true) : (r.get i).done t = true ∨ ∃ m < r.size, i ≤ m ∧
      r.youngest (fun e => !e.done t && p e) = some (r.slot m) ∧ (r.get m).done t = false ∧
      p (r.get m) = true ∧ ∀ n < r.size, m < n → (r.get n).done t = false →
        p (r.get n) = false := by
  cases hd : (r.get i).done t with
  | true => exact .inl rfl
  | false =>
    right
    have found : (!(r.get i).done t && p (r.get i)) = true := by rw [hd, hp]; rfl
    cases hy : r.youngest (fun e => !e.done t && p e) with
    | none =>
      rw [RingBuffer.youngest_none hy i hi] at found
      cases found
    | some k =>
      obtain ⟨m, hm, rfl, hq, last⟩ := RingBuffer.youngest_some hy
      rw [Bool.and_eq_true, Bool.not_eq_true'] at hq
      refine ⟨m, hm, ?_, rfl, hq.1, hq.2, fun n hn hmn hdn => ?_⟩
      · by_contra hlt
        rw [last i (Nat.not_le.mp hlt) hi] at found
        cases found
      · have none := last n hmn hn
        rw [hdn] at none
        exact none

theorem addr_of_part {x : O3Instr} {k : Nat} (hk : k ∈ parts x) :
    (x.noMem = false → x.addr k ≠ 0) ∧ (x.addr k ≠ 0 → x.noMem = false ∧ k < 3) := by
  have low : x.addr k ≠ 0 → k < 3 := by
    intro ha
    by_contra hn
    match k, hn with
    | k + 3, _ => exact ha rfl
  unfold parts at hk
  split at hk
  · rename_i hm
    rw [List.mem_singleton.mp hk]
    exact ⟨fun h => (by rw [hm] at h; cases h), fun h => absurd rfl h⟩
  · rename_i hm
    have ha : x.addr k ≠ 0 := by simpa using (List.mem_filter.mp hk).2
    exact ⟨fun _ => ha, fun _ => ⟨Bool.not_eq_true _ ▸ hm, low ha⟩⟩

section Held
variable {x : O3Instr} {dep : Option Nat} {c : O3Rob} {i : Nat}

theorem waits_of_named {d : Option Nat} {k : Nat} (names : d ∈ c.depends) (hd : d = some k) :
    c.waitsFor k := by
  subst hd
  exact names

/-- The entry that is named is `i`, or has `i` as a producer too. -/
theorem held_of_named {m : Nat} (hm : m < s.o3rob.size) (him : i ≤ m)
    (hw : c.waitsFor (s.o3rob.slot m)) (produced : i < m → Produces s.o3rob.get i m) :
    Held s c i s.o3rob.size := by
  rcases Nat.eq_or_lt_of_le him with rfl | him
  · exact .inl hw
  · exact .inr ⟨m, him, hm, hw, produced him⟩

theorem Entering.serial_lt (he : Entering x s₀ dep s) (hr : Rings cfg s₀) {m : Nat}
    (hm : m < s₀.o3rob.size) : (s.o3rob.get m).serial < s₀.entered.length := by
  have live : s₀.o3rob.get m ∈ s₀.history :=
    List.mem_append_right _ (RingBuffer.mem_toList.mpr ⟨m, hm, rfl⟩)
  rw [he.old m hm]
  exact (List.getElem?_eq_some_iff.mp (hr.describes _ live).instr).1

theorem Entering.held_part (he : Entering x s₀ dep s) (names : dep ∈ c.depends)
    (hge : s₀.o3rob.size ≤ i) (hi : i < s.o3rob.size) : Held s c i s.o3rob.size := by
  have waits : c.waitsFor (s.o3rob.slot (s.o3rob.size - 1)) :=
    waits_of_named names (he.last (hge.trans_lt hi))
  refine held_of_named (by omega) (by omega) waits fun him => ⟨him, .inl ?_⟩
  rw [he.serial i hi hge, he.serial _ (by omega) (by omega)]

theorem Entering.held_miss (he : Entering x s₀ dep s) (names : (s₀.deps t x).branchDep ∈ c.depends)
    (hi : i < s₀.o3rob.size) (miss : (s.o3rob.get i).branchMiss = true) :
    (s.o3rob.get i).done t = true ∨ Held s c i s.o3rob.size := by
  rw [he.old i hi] at miss ⊢
  refine (youngest_names O3Rob.branchMiss hi miss).imp_right ?_
  rintro ⟨m, hm, him, hy, -, -, -⟩
  have waits : c.waitsFor (s.o3rob.slot m) := by
    rw [he.slot]
    exact waits_of_named names hy
  refine held_of_named (hm.trans_le he.size) him waits fun him => ⟨him, .inr (.inl ?_)⟩
  rw [he.old i hi]
  exact miss

/-- Only entries without access have the address 0, and they would hide an access to its word. -/
theorem Entering.accesses (he : Entering x s₀ dep s) (hc : Clear t s₀ x) {k m : Nat} (low : k < 3)
    (mem : x.noMem = false) (accessed : x.addr k ≠ 0) (hi : i < s₀.o3rob.size)
    (flying : (s.o3rob.get i).done t = false) (ha : (s.o3rob.get i).memaddr ≠ 0)
    (word : (s.o3rob.get i).memaddr >>> wordLog = x.addr k >>> wordLog)
    (hm : m < s.o3rob.size) (him : i < m) (hd : (s.o3rob.get m).done t = false)
    (wordm : (s.o3rob.get m).memaddr >>> wordLog = x.addr k >>> wordLog)
    (behind : ∀ n < s.o3rob.size, m < n → (s.o3rob.get n).done t = false →
      ((s.o3rob.get n).memaddr >>> wordLog == x.addr k >>> wordLog) = false) :
    (s.o3rob.get m).memaddr ≠ 0 := by
  intro hz
  have old := fun n (hn : n < s₀.o3rob.size) => he.old n hn
  by_cases hm₀ : m < s₀.o3rob.size
  · rw [hz, Nat.zero_shiftRight] at wordm
    refine hc ⟨k, low, accessed, wordm.symm⟩
      ⟨m, hm₀, old m hm₀ ▸ hd, old m hm₀ ▸ hz, ⟨i, him, ?_⟩, fun n hn hmn hdn => ?_⟩
    · rw [← old i hi]
      exact ⟨flying, ha, word.trans wordm.symm⟩
    · have other := behind n (hn.trans_le he.size) hmn (by rw [old n hn]; exact hdn)
      rw [old n hn, ← wordm] at other
      simpa using other
  · exact he.access mem m hm (Nat.not_lt.mp hm₀) hz

theorem Entering.held_access (he : Entering x s₀ dep s) (hc : Clear t s₀ x) {k : Nat} (low : k < 3)
    (mem : x.noMem = false) (accessed : x.addr k ≠ 0) (names : s.memDep t (x.addr k) ∈ c.depends)
    (hi : i < s₀.o3rob.size) (ha : (s.o3rob.get i).memaddr ≠ 0)
    (word : (s.o3rob.get i).memaddr >>> wordLog = x.addr k >>> wordLog) :
    (s.o3rob.get i).done t = true ∨ Held s c i s.o3rob.size := by
  by_cases done : (s.o3rob.get i).done t = true
  · exact .inl done
  · have flying := Bool.eq_false_iff.mpr done
    obtain ⟨m, hm, him, hy, hd, hw, behind⟩ :=
      (youngest_names (t := t) (fun e => e.memaddr >>> wordLog == x.addr k >>> wordLog)
        (hi.trans_le he.size) (beq_iff_eq.mpr word)).resolve_left done
    have wordm : (s.o3rob.get m).memaddr >>> wordLog = x.addr k >>> wordLog := beq_iff_eq.mp hw
    have waits : c.waitsFor (s.o3rob.slot m) := waits_of_named names hy
    exact .inr (held_of_named hm him waits fun him => ⟨him, .inr (.inr (.inl ⟨ha,
      he.accesses hc low mem accessed hi flying ha word hm him hd wordm behind,
      word.trans wordm.symm⟩))⟩)

theorem Entering.held_source (he : Entering x s₀ dep s) {rr : Nat}
    (names : s₀.regDep t rr ∈ c.depends) (hi : i < s₀.o3rob.size)
    (writes : (s.o3rob.get i).isRegDep rr = true)
    (last : ∀ m < s₀.o3rob.size, i < m → (s.o3rob.get m).isRegDep rr = true →
      (s.o3rob.get m).serial = (s.o3rob.get i).serial) :
    (s.o3rob.get i).done t = true ∨ Held s c i s.o3rob.size := by
  have old := fun n (hn : n < s₀.o3rob.size) => he.old n hn
  rw [old i hi] at writes ⊢
  refine (youngest_names (O3Rob.isRegDep rr) hi writes).imp_right ?_
  rintro ⟨m, hm, him, hy, -, hw, -⟩
  have waits : c.waitsFor (s.o3rob.slot m) := by
    rw [he.slot]
    exact waits_of_named names hy
  exact held_of_named (hm.trans_le he.size) him waits fun him =>
    ⟨him, .inl (last m hm him (old m hm ▸ hw)).symm⟩

theorem Entering.held {k : Nat} (he : Entering x s₀ dep s) (hr : Rings cfg s₀) (hc : Clear t s₀ x)
    (hk : k ∈ parts x)
    (hnew : c = newEntry cfg t x (s₀.deps t x) s.entered.length k
      (if k < 3 then s.memDep t (x.addr k) else none) dep)
    {f : Nat → O3Rob} (hf : ∀ i < s.o3rob.size, f i = s.o3rob.get i) (hfc : f s.o3rob.size = c)
    (hp : Produces f i s.o3rob.size) :
    (s.o3rob.get i).done t = true ∨ Held s c i s.o3rob.size := by
  obtain ⟨hi, why⟩ := hp
  have serial : c.serial = s₀.entered.length := by
    rw [hnew, ← he.entered]
    rfl
  by_cases hge : s₀.o3rob.size ≤ i
  · exact .inr (he.held_part (by rw [hnew]; simp [newEntry, O3Rob.depends]) hge hi)
  have hi₀ : i < s₀.o3rob.size := Nat.not_le.mp hge
  rw [hf i hi, hfc] at why
  rcases why with same | miss | ⟨ha, accessed, word⟩ | ⟨rr, hrr, writes, -, last⟩
  · exact absurd (same.trans serial) (he.serial_lt hr hi₀).ne
  · exact he.held_miss (by rw [hnew]; simp [newEntry, O3Rob.depends]) hi₀ miss
  · have memaddr : c.memaddr = x.addr k := by
      rw [hnew]
      rfl
    rw [memaddr] at accessed word
    obtain ⟨mem, low⟩ := (addr_of_part hk).2 accessed
    refine he.held_access hc low mem accessed ?_ hi₀ ha word
    rw [hnew, if_pos low]
    simp [newEntry, O3Rob.depends]
  · refine he.held_source (t := t) ?_ hi₀ writes fun m hm him hw => ?_
    · rw [hnew] at hrr ⊢
      simp only [O3Instr.sources, newEntry, List.mem_cons, List.not_mem_nil, or_false] at hrr
      rcases hrr with rfl | rfl | rfl | rfl <;> simp [newEntry, deps, O3Rob.depends]
    · have hms : m < s.o3rob.size := hm.trans_le he.size
      have written := last m him hms
      rw [hf m hms, serial] at written
      exact written (he.serial_lt hr hm) hw

end Held

theorem Ordered.push {x : O3Instr} {dep : Option Nat} {k : Nat} (h : Ordered t s)
    (he : Entering x s₀ dep s) (hr : Rings cfg s₀) (hc : Clear t s₀ x) (hk : k ∈ parts x)
    (hp : Pushed cfg t x (s₀.deps t x) k dep s s₁) :
    Ordered t s₁ ∧ Entering x s₀ (some (s.o3rob.slot s.o3rob.size)) s₁ := by
  have old : ∀ i < s.o3rob.size, s₁.o3rob.get i = s.o3rob.get i := hp.old
  have back : ∀ j < s₁.o3rob.size, j < s.o3rob.size ∨ j = s.o3rob.size := by
    intro j hj
    rw [hp.one] at hj
    omega
  have slot := hp.toGrown.slot
  have committed : s₁.committed = s.committed := hp.toGrown.same O3Core.committed fun _ _ => rfl
  have same : ∀ {i j}, j < s.o3rob.size →
      (Produces s₁.o3rob.get i j ↔ Produces s.o3rob.get i j) := fun hj =>
    produces_iff (k := 0) fun m _ hm => congrArg O3Rob.fixed (old m (hm.trans_lt hj))
  have held : ∀ {e i j}, j ≤ s.o3rob.size → Held s e i j → Held s₁ e i j := by
    rintro e i j hj (hw | ⟨m, him, hmj, hw, hpm⟩)
    · exact .inl (by rw [slot]; exact hw)
    · exact .inr ⟨m, him, hmj, by rw [slot]; exact hw, (same (hmj.trans_le hj)).mpr hpm⟩
  have joined : ∀ {i}, Produces s₁.o3rob.get i s.o3rob.size → _ :=
    fun hprod => he.held hr hc hk hp.new old rfl hprod
  refine ⟨⟨?_, ?_, ?_⟩, ⟨he.size.trans hp.size, fun i => (slot i).trans (he.slot i),
    fun i hi => (old i (hi.trans_le he.size)).trans (he.old i hi),
    hp.toGrown.entered.trans he.entered, ?_, ?_, ?_⟩⟩
  · rw [committed]
    exact h.committed
  · intro j hj hx i hprod
    rcases back j hj with hj | rfl
    · rw [old i (hprod.1.trans hj), old j hj]
      rw [old j hj] at hx
      exact (h.waits j hj hx i ((same hj).mp hprod)).imp_right (held hj.le)
    · rw [old i hprod.1]
      exact (joined hprod).imp_right (held le_rfl)
  · intro j hj hx i hprod
    rcases back j hj with hj | rfl
    · rw [old i (hprod.1.trans hj)]
      rw [old j hj] at hx
      exact h.started j hj hx i ((same hj).mp hprod)
    · rw [hp.new] at hx
      exact absurd rfl hx
  · intro i hi hge
    rcases back i hi with hi | rfl
    · rw [old i hi]
      exact he.serial i hi hge
    · rw [hp.new]
      exact congrArg List.length he.entered
  · intro hm i hi hge
    rcases back i hi with hi | rfl
    · rw [old i hi]
      exact he.access hm i hi hge
    · rw [hp.new]
      exact (addr_of_part hk).1 hm
  · intro _
    rw [hp.one, slot]
    rfl

theorem Ordered.parts {x : O3Instr} {ks : List Nat} {dep : Option Nat} (h : Ordered t s)
    (he : Entering x s₀ dep s) (hr : Rings cfg s₀) (hc : Clear t s₀ x) (hks : ks ⊆ parts x)
    (hp : Parts cfg t x (s₀.deps t x) ks dep s s') : Ordered t s' := by
  -- the dependencies are those of `s₀` throughout
  generalize hd : s₀.deps t x = d at hp
  induction hp with
  | none hg hs =>
    exact h.congr ⟨hg.head, hs, hg.cap⟩ hg.old (hg.same O3Core.committed fun _ _ => rfl)
  | push hp _ ih =>
    subst hd
    obtain ⟨ordered, entering⟩ := h.push he hr hc (hks List.mem_cons_self) hp
    exact ih ordered entering fun k hk => hks (List.mem_cons_of_mem _ hk)

theorem Ordered.issueInstr (h : Ordered t s) (hr : Rings cfg s) (x : O3Instr)
    (room : s.o3rob.size + 3 < s.o3rob.cap) (hc : Clear t s x) :
    Ordered t (issueInstr cfg t x s) := by
  obtain ⟨s₁, hp, eq⟩ := issueInstr_parts cfg t x room
  have predicted : Ordered t (predict cfg t x s) := h.of_same rfl rfl
  have entering : Entering x s none (predict cfg t x s) := {
    size := le_rfl
    slot := fun _ => rfl
    old := fun _ _ => rfl
    entered := rfl
    serial := fun i hi hge => absurd hi (Nat.not_lt.mpr hge)
    access := fun _ i hi hge => absurd hi (Nat.not_lt.mpr hge)
    last := fun hlt => absurd hlt (Nat.lt_irrefl _) }
  have parts : Ordered t s₁ := predicted.parts entering hr hc (List.Subset.refl _) hp
  rw [eq]
  exact parts.of_same rfl rfl

theorem Ordered.issueLoop (n : Nat) (h : Ordered t s) (hc : Consistent cfg s)
    (clear : IssueClear cfg t n s) :
    Ordered t (issueLoop cfg t n s) ∧ Consistent cfg (O3Core.issueLoop cfg t n s) := by
  induction n generalizing s with
  | zero => exact ⟨h, hc⟩
  | succ n ih =>
    unfold O3Core.issueLoop
    split
    · rename_i room
      obtain ⟨first, rest⟩ := clear room
      have one : Ordered t (issueOne cfg t s) ∧ Consistent cfg (issueOne cfg t s) := by
        unfold issueOne
        dsimp only
        split
        · rename_i ready
          exact ⟨h.issueInstr hc.rings _ (by rw [hc.rings.robCap]; omega) (first ready),
            issueInstr_consistent hc room.1 room.2⟩
        · exact ⟨h, hc⟩
      exact ih one.1 one.2 rest
    · exact ⟨h, hc⟩

theorem Ordered.phases (h : Ordered t s) (hc : Consistent cfg s)
    (clear : IssueClear cfg t cfg.maxIssueWidth (fetch cfg t s)) :
    Ordered t (issue cfg t (fetch cfg t s)) ∧ Ordered t (phases cfg t s) := by
  have fetched : Fetched cfg s (fetch cfg t s) := (fetch_fetched hc.rings.queueSize).1
  have loaded : Ordered t (fetch cfg t s) :=
    h.of_same (fetched.same O3Core.o3rob fun _ _ _ => rfl)
      (fetched.same O3Core.committed fun _ _ _ => rfl)
  have issued := loaded.issueLoop cfg.maxIssueWidth (fetched.consistent hc) clear
  have executed := execute_consistent (t := t) issued.2
  have woken : Ordered t (O3Core.wake cfg t (O3Core.execute cfg t (issue cfg t (fetch cfg t s)))) :=
    (issued.1.execute issued.2.rings.robSize.le).wake executed.rings.robSize.le
  refine ⟨issued.1, ?_⟩
  exact (commit_keeps (P := fun s => Ordered t s ∧ Consistent cfg s)
    (fun _ hp => ⟨hp.1.of_same rfl rfl, retry_consistent hp.2⟩)
    (fun _ hp hs hd => ⟨hp.1.commitOne hp.2.rings hd, commitOne_consistent hp.2 hs hd⟩)
    ⟨woken, wake_consistent executed⟩).1

theorem dispatch_ordered (h : Ordered s.now s) (hc : Consistent cfg s) (ht : s.now ≤ t)
    (clear : StepClear cfg s (.processEvent t)) : Ordered t (dispatch cfg s t).1 := by
  have skipped : Ordered t (skip cfg t (s.take t)) :=
    (h.later ht).of_same (skip_rob (s := s.take t)) skip_committed
  have taken : Consistent cfg (s.take t) :=
    hc.of_same rfl rfl rfl rfl rfl rfl
  unfold dispatch processEvent
  dsimp only
  split
  · exact skipped.of_same rfl rfl
  · rename_i hh
    rw [hungry_take] at hh
    exact (skipped.phases (skip_consistent taken) (clear (Bool.not_eq_true _ ▸ hh))).2

theorem answer_samePlace {n time : Nat} {type : EventType}
    (hs : answer cfg s n type time = .ok s') : SamePlace s s' := by
  obtain ⟨call, hcall, ⟨isf, hs⟩ | ⟨isa, hs⟩⟩ := answer_cases hs
  · rcases addReqEvent_cases hs with ⟨nacks, delay, rfl⟩ | rfl
    · exact ⟨rfl, rfl, rfl⟩
    · exact ⟨by rw [loaded_rob]; rfl, by rw [loaded_rob]; rfl, by rw [loaded_rob]; rfl⟩
  · rcases addRepEvent_cases hs with ⟨nacks, kind, delay, rfl⟩ | ⟨r, hr, rfl⟩
    · exact ⟨rfl, rfl, rfl⟩
    · exact ⟨rfl, rfl, rfl⟩

theorem Reaches.ordered {call : Call CorePort} (hr : Reaches call s s') (h : Ordered t s)
    (hs : s.o3rob.size ≤ s.o3rob.cap) (place : SamePlace s s') : Ordered t s' := by
  obtain ⟨i, hi, hx, -, -, same | ⟨r, list⟩⟩ := hr.entry
  · exact h.of_same same hr.committed
  · have started : (s.o3rob.get i).state ≠ .issued := fun he => by
      rw [he] at hx
      cases hx
    have written : Ordered t (s.writeRob (s.o3rob.slot i)
        { s.o3rob.get i with state := .completed, readyTime := r }) := by
      refine h.write hs hi rfl (fun hd => ?_) (fun he => by cases he) fun _ =>
        h.started i hi started
      rw [O3Rob.done_iff, hx] at hd
      cases hd.1
    refine written.congr ⟨place.head, place.size, place.cap⟩ (fun j hj => ?_) hr.committed
    have hj : j < s.o3rob.size := hj
    have at_j : s'.o3rob.toList[j]? = some (s'.o3rob.get j) := by
      rw [RingBuffer.toList_getElem?, if_pos (place.size.symm ▸ hj)]
    rw [list, ← RingBuffer.toList_write hi hs, RingBuffer.toList_getElem?, RingBuffer.write_size,
      if_pos hj] at at_j
    exact (Option.some.inj at_j).symm

theorem step_ordered (h : Ordered s.now s) (hc : Consistent cfg s) {e : CoreEvent}
    (ht : s.Timely e) (named : Named (fun _ => False) s.now s) (clear : StepClear cfg s e)
    (hs : step cfg s e = .ok s') : Ordered s'.now s' := by
  cases e with
  | addInstruction x =>
    cases hs
    have same : (addInstruction cfg s x).1.o3rob = s.o3rob ∧
        (addInstruction cfg s x).1.committed = s.committed ∧
        (addInstruction cfg s x).1.now = s.now := by
      unfold addInstruction wakeUp
      dsimp only
      split <;> split <;> exact ⟨rfl, rfl, rfl⟩
    rw [same.2.2]
    exact h.of_same same.1 same.2.1
  | setActive isActive =>
    cases hs
    exact h.of_same rfl rfl
  | processEvent t =>
    cases hs
    have now : (dispatch cfg s t).1.now = t := dispatch_now hc
    rw [now]
    exact dispatch_ordered h hc (named.ahead t ht.1) clear
  | answer n type time =>
    obtain ⟨call, hcall, -⟩ := answer_cases hs
    obtain ⟨now, -⟩ := answer_named named hc ht hs
    obtain ⟨-, committed, reaches⟩ := answer_consistent hc hs
    have reaches := reaches call hcall
    rw [now]
    split at reaches
    · exact reaches.ordered h hc.rings.robSize.le (answer_samePlace hs)
    · exact h.of_same reaches committed
  | migrate isMigrateReady =>
    cases hs
    exact h.of_same rfl rfl
  | advance t =>
    cases hs
    exact (h.later ht.1).of_same rfl rfl

theorem init_ordered (cfg : O3CoreConfig) : Ordered (init cfg).now (init cfg) where
  committed _ he := absurd he List.not_mem_nil
  waits _ hj := absurd hj (Nat.not_lt_zero _)
  started _ hj := absurd hj (Nat.not_lt_zero _)

theorem timely_ordered (h : TimelyRun cfg (StepClear cfg) s) : Ordered s.now s := by
  induction h with
  | init => exact init_ordered cfg
  | step e hr ht clear hs ih =>
    exact step_ordered ih (run_consistent hr.run) ht (timely_named hr) clear hs

end O3Core
end McSim
