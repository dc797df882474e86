import McSim.O3CoreRings

/-! What a dependency names.
In a run that dispatches the core at each tick it asked for, the slot that an issued entry waits for
holds an older entry, and one that is not done or whose tick for waking others is still to come. -/

namespace McSim

namespace O3Rob

def depends (e : O3Rob) : List (Option Nat) :=
  [e.memDep, e.instrDep, e.branchDep, e.rr0, e.rr1, e.rr2, e.rr3]

def waitsFor (k : Nat) (e : O3Rob) : Prop := some k ∈ e.depends

instance (k : Nat) (e : O3Rob) : Decidable (e.waitsFor k) :=
  inferInstanceAs (Decidable (some k ∈ e.depends))

theorem free_iff {e : O3Rob} : e.free = true ↔ ∀ k, ¬ e.waitsFor k := by
  have none : ∀ d : Option Nat, d.isNone = true ↔ ∀ k, some k ≠ d := by
    intro d
    cases d with
    | none => simp
    | some k => simp
  simp only [free, Bool.and_eq_true, none, waitsFor, depends, List.mem_cons, List.not_mem_nil,
    or_false]
  constructor
  · rintro ⟨⟨⟨⟨⟨⟨h, h₁⟩, h₂⟩, h₃⟩, h₄⟩, h₅⟩, h₆⟩ k
    rintro (he | he | he | he | he | he | he)
    · exact h k he
    · exact h₁ k he
    · exact h₂ k he
    · exact h₃ k he
    · exact h₄ k he
    · exact h₅ k he
    · exact h₆ k he
  · intro h
    exact ⟨⟨⟨⟨⟨⟨fun k he => h k (.inl he), fun k he => h k (.inr (.inl he))⟩,
      fun k he => h k (.inr (.inr (.inl he)))⟩,
      fun k he => h k (.inr (.inr (.inr (.inl he))))⟩,
      fun k he => h k (.inr (.inr (.inr (.inr (.inl he)))))⟩,
      fun k he => h k (.inr (.inr (.inr (.inr (.inr (.inl he))))))⟩,
      fun k he => h k (.inr (.inr (.inr (.inr (.inr (.inr he))))))⟩

theorem clearDep_some {k n : Nat} {d : Option Nat} :
    some n = clearDep k d ↔ some n = d ∧ n ≠ k := by
  unfold clearDep
  split
  · rename_i h
    subst h
    simp
  · rename_i h
    constructor
    · rintro rfl
      exact ⟨rfl, fun he => h (he ▸ rfl)⟩
    · exact fun he => he.1

theorem waitsFor_clear {k n : Nat} {e : O3Rob} :
    (e.clear k).waitsFor n ↔ e.waitsFor n ∧ n ≠ k := by
  simp only [waitsFor, depends, clear, List.mem_cons, List.not_mem_nil, or_false, clearDep_some]
  rw [← or_and_right, ← or_and_right, ← or_and_right, ← or_and_right, ← or_and_right,
    ← or_and_right]

theorem done_iff {t : Nat} {e : O3Rob} :
    e.done t = true ↔ e.state = .completed ∧ e.readyTime ≤ t := by
  simp [done]

theorem not_done_iff {t : Nat} {e : O3Rob} :
    (!e.done t) = true ↔ (e.state = .completed → t < e.readyTime) := by
  rw [Bool.not_eq_true', ← Bool.not_eq_true, done_iff]
  constructor
  · exact fun h hc => Nat.not_le.mp fun hl => h ⟨hc, hl⟩
  · exact fun h hc => absurd (h hc.1) (Nat.not_lt.mpr hc.2)

end O3Rob

namespace O3Core

variable {cfg : O3CoreConfig} {s s' s₁ s₂ : O3Core} {t : Nat} {due : Nat → Prop}

/-- At tick `t`, no event is late, and every completed entry has had or will have its tick. An
issued entry waits for older ones only, and for a completed one only while its tick is to come or
`due` in this very call. -/
structure Named (due : Nat → Prop) (t : Nat) (s : O3Core) : Prop where
  ahead : ∀ u ∈ s.events, t ≤ u
  completed : ∀ i < s.o3rob.size, (s.o3rob.get i).state = .completed →
    (s.o3rob.get i).readyTime ∈ s.events ∨ (s.o3rob.get i).readyTime ≤ t
  older : ∀ j < s.o3rob.size, (s.o3rob.get j).state = .issued →
    ∀ k, (s.o3rob.get j).waitsFor k → ∃ i < j, k = s.o3rob.slot i ∧
      ((s.o3rob.get i).state = .completed →
        (s.o3rob.get i).readyTime ∈ s.events ∨ due (s.o3rob.get i).readyTime)

theorem Named.of_same (h : Named due t s) (rob : s'.o3rob = s.o3rob) (sub : s.events ⊆ s'.events)
    (ahead : ∀ u ∈ s'.events, t ≤ u) : Named due t s' where
  ahead := ahead
  completed i hi hc := by
    rw [rob] at hi hc ⊢
    exact (h.completed i hi hc).imp (fun hm => sub hm) id
  older j hj hi k hk := by
    rw [rob] at hj hi hk ⊢
    obtain ⟨i, hij, rfl, hc⟩ := h.older j hj hi k hk
    exact ⟨i, hij, rfl, fun hx => (hc hx).imp (fun hm => sub hm) id⟩

theorem Named.addEvent (h : Named due t s) {u : Nat} (hu : t ≤ u) : Named due t (s.addEvent u) :=
  h.of_same rfl (Finset.subset_insert _ _) fun v hv => by
    rcases Finset.mem_insert.mp hv with rfl | hv
    · exact hu
    · exact h.ahead v hv

theorem Named.retry (h : Named due t s) : Named due t (retry cfg t s) :=
  h.addEvent (Nat.le_add_right _ _)

/-- The dependencies that the parts of an instruction share name entries in flight. -/
def InFlight (t : Nat) (s : O3Core) (k : Nat) : Prop :=
  ∃ i < s.o3rob.size, k = s.o3rob.slot i ∧ (!(s.o3rob.get i).done t) = true

theorem InFlight.grown (h : Grown s s') {k : Nat} (hk : InFlight t s k) : InFlight t s' k := by
  obtain ⟨i, hi, rfl, hd⟩ := hk
  refine ⟨i, hi.trans_le h.size, (h.slot i).symm, ?_⟩
  rw [h.old i hi]
  exact hd

theorem youngest_inFlight {p : O3Rob → Bool} {k : Nat}
    (h : s.o3rob.youngest (fun e => !e.done t && p e) = some k) : InFlight t s k := by
  obtain ⟨i, hi, rfl, hp, -⟩ := RingBuffer.youngest_some h
  exact ⟨i, hi, rfl, (Bool.and_eq_true _ _ ▸ hp).1⟩

def Deps.InFlight (t : Nat) (s : O3Core) (d : Deps) : Prop :=
  ∀ k, some k ∈ [d.branchDep, d.rr0, d.rr1, d.rr2, d.rr3] → O3Core.InFlight t s k

theorem deps_inFlight (x : O3Instr) : (s.deps t x).InFlight t s := by
  intro k hk
  simp only [deps, List.mem_cons, List.not_mem_nil, or_false] at hk
  rcases hk with hk | hk | hk | hk | hk <;> exact youngest_inFlight hk.symm

theorem Named.push {x : O3Instr} {d : Deps} {k : Nat} {dep : Option Nat} (h : Named due t s)
    (hp : Pushed cfg t x d k dep s s') (hd : d.InFlight t s)
    (hdep : ∀ n, dep = some n → InFlight t s n) : Named due t s' := by
  have events : s'.events = s.events := hp.toGrown.same O3Core.events fun _ _ => rfl
  have back : ∀ j < s'.o3rob.size, j < s.o3rob.size ∨ j = s.o3rob.size := by
    intro j hj
    rw [hp.one] at hj
    omega
  have found : ∀ n, InFlight t s n → ∃ i < s.o3rob.size, n = s'.o3rob.slot i ∧
      ((s'.o3rob.get i).state = .completed →
        (s'.o3rob.get i).readyTime ∈ s'.events ∨ due (s'.o3rob.get i).readyTime) := by
    rintro n ⟨i, hi, rfl, hn⟩
    refine ⟨i, hi, (hp.toGrown.slot i).symm, fun hc => ?_⟩
    rw [hp.old i hi] at hc ⊢
    rw [events]
    rcases h.completed i hi hc with hm | hle
    · exact .inl hm
    · exact absurd (O3Rob.not_done_iff.mp hn hc) (Nat.not_lt.mpr hle)
  constructor
  · rw [events]
    exact h.ahead
  · intro i hi hc
    rcases back i hi with hi | rfl
    · rw [hp.old i hi] at hc ⊢
      rw [events]
      exact h.completed i hi hc
    · rw [hp.new] at hc
      cases hc
  · intro j hj hx n hn
    rcases back j hj with hj | rfl
    · rw [hp.old j hj] at hx hn
      obtain ⟨i, hij, rfl, hc⟩ := h.older j hj hx n hn
      refine ⟨i, hij, (hp.toGrown.slot i).symm, ?_⟩
      rw [hp.old i (hij.trans hj), events]
      exact hc
    · rw [hp.new] at hn
      simp only [O3Rob.waitsFor, O3Rob.depends, newEntry, List.mem_cons, List.not_mem_nil,
        or_false] at hn
      refine found n ?_
      rcases hn with hn | hn | hn
      · split at hn
        · exact youngest_inFlight hn.symm
        · cases hn
      · exact hdep n hn.symm
      · exact hd n (by simpa using hn)

theorem Named.parts {x : O3Instr} {d : Deps} {ks : List Nat} {dep : Option Nat} (h : Named due t s)
    (hp : Parts cfg t x d ks dep s s') (hd : d.InFlight t s)
    (hdep : ∀ n, dep = some n → InFlight t s n) : Named due t s' := by
  induction hp with
  | none hg hs =>
    rename_i s s'
    have events : s'.events = s.events := hg.same O3Core.events fun _ _ => rfl
    have get : ∀ i < s.o3rob.size, s'.o3rob.get i = s.o3rob.get i := hg.old
    constructor
    · rw [events]
      exact h.ahead
    · intro i hi hc
      rw [hs] at hi
      rw [get i hi] at hc ⊢
      rw [events]
      exact h.completed i hi hc
    · intro j hj hx n hn
      rw [hs] at hj
      rw [get j hj] at hx hn
      obtain ⟨i, hij, rfl, hc⟩ := h.older j hj hx n hn
      refine ⟨i, hij, (hg.slot i).symm, ?_⟩
      rw [get i (hij.trans hj), events]
      exact hc
  | push hp _ ih =>
    refine ih (h.push hp hd hdep) (fun n hn => (hd n hn).grown hp.toGrown) (fun n hn => ?_)
    cases hn
    refine ⟨_, by rw [hp.one]; exact Nat.lt_succ_self _, (hp.toGrown.slot _).symm, ?_⟩
    rw [hp.new, O3Rob.not_done_iff]
    exact fun hc => by cases hc

theorem Named.issueInstr (h : Named due t s) (x : O3Instr) (room : s.o3rob.size + 3 < s.o3rob.cap) :
    Named due t (issueInstr cfg t x s) := by
  obtain ⟨s₁, hp, eq⟩ := issueInstr_parts cfg t x room
  have trained : Named due t { s with bp := (s.branchMiss x).1 } :=
    h.of_same rfl (Finset.Subset.refl _) h.ahead
  have predicted : Named due t (predict cfg t x s) := trained.addEvent (Nat.le_add_right _ _)
  have parts := predicted.parts hp (deps_inFlight x) fun n hn => by cases hn
  rw [eq]
  exact parts.of_same rfl (Finset.Subset.refl _) parts.ahead

theorem Named.issue (h : Named due t s) (hc : Consistent cfg s) :
    Named due t (issue cfg t s) ∧ Consistent cfg (O3Core.issue cfg t s) :=
  issueLoop_keeps (P := fun s => Named due t s ∧ Consistent cfg s) (fun s hp hq room _ _ =>
    ⟨hp.1.issueInstr _ (by rw [hp.2.rings.robCap]; omega), issueInstr_consistent hp.2 hq room⟩) _
    ⟨h, hc⟩

/-- Entry `i` is rewritten and waits for no more than before. Where it is completed, its tick is to
come. -/
theorem Named.write (h : Named due t s) (hs : s.o3rob.size ≤ s.o3rob.cap) {i : Nat}
    (hi : i < s.o3rob.size) {e : O3Rob} (hw : e.state = .issued → (s.o3rob.get i).state = .issued)
    (hk : ∀ k, e.waitsFor k → (s.o3rob.get i).waitsFor k)
    (hr : e.state = .completed → e.readyTime ∈ s.events) :
    Named due t (s.writeRob (s.o3rob.slot i) e) := by
  have get := fun j (hj : j < s.o3rob.size) => writeRob_get hs hi hj e
  constructor
  · exact h.ahead
  · intro j hj hc
    have hj : j < s.o3rob.size := hj
    rw [get j hj] at hc ⊢
    split at hc
    · rw [if_pos ‹_›]
      exact .inl (hr hc)
    · rw [if_neg ‹_›]
      exact h.completed j hj hc
  · intro j hj hx n hn
    have hj : j < s.o3rob.size := hj
    have was : (s.o3rob.get j).state = .issued ∧ (s.o3rob.get j).waitsFor n := by
      rw [get j hj] at hx hn
      split at hx
      · rename_i same
        rw [if_pos same] at hn
        rw [same]
        exact ⟨hw hx, hk n hn⟩
      · rename_i other
        rw [if_neg other] at hn
        exact ⟨hx, hn⟩
    obtain ⟨m, hmj, rfl, hc⟩ := h.older j hj was.1 n was.2
    refine ⟨m, hmj, rfl, ?_⟩
    rw [get m (hmj.trans hj)]
    split
    · exact fun hx => .inl (hr hx)
    · exact hc

theorem Named.complete (h : Named due t s) (hs : s.o3rob.size ≤ s.o3rob.cap) {i : Nat}
    (hi : i < s.o3rob.size) (m : Nat → Bool) {r : Nat} (hr : t ≤ r) :
    Named due t (({ s with isMigrateReady := m }).complete (s.o3rob.slot i) r) := by
  have added : Named due t (s.addEvent r) := h.addEvent hr
  have written : Named due t ((s.addEvent r).writeRob (s.o3rob.slot i)
      { s.o3rob.get i with state := .completed, readyTime := r }) :=
    added.write hs hi (fun hx => by cases hx) (fun k hk => hk)
      fun _ => Finset.mem_insert_self r s.events
  exact written.of_same rfl (Finset.Subset.refl _) written.ahead

theorem Named.access (h : Named due t s) (hs : s.o3rob.size ≤ s.o3rob.cap) {i : Nat}
    (hi : i < s.o3rob.size) (n : Nat) : Named due t (access cfg t (s.o3rob.slot i) n s) := by
  have written : Named due t (s.writeRob (s.o3rob.slot i)
      { s.o3rob.get i with state := .executing }) :=
    h.write hs hi (fun hx => by cases hx) (fun k hk => hk) fun hx => by cases hx
  unfold O3Core.access
  dsimp only
  split
  · exact written.of_same rfl (Finset.Subset.refl _) written.ahead
  · exact written.of_same rfl (Finset.Subset.refl _) written.ahead

theorem Named.execute (h : Named due t s) (hs : s.o3rob.size ≤ s.o3rob.cap) :
    Named due t (execute cfg t s) ∧ SamePlace s (O3Core.execute cfg t s) := by
  refine execute_keeps (P := fun s₁ => Named due t s₁ ∧ SamePlace s s₁)
    (fun s₁ hp => ⟨hp.1.retry, hp.2.trans ⟨rfl, rfl, rfl⟩⟩) (fun s₁ i m r hp hi hr _ => ?_)
    (fun s₁ i hp hi _ => ?_) ⟨h, SamePlace.refl s⟩
  · have hs₁ : s₁.o3rob.size ≤ s₁.o3rob.cap := hp.2.size.symm ▸ hp.2.cap.symm ▸ hs
    exact ⟨hp.1.complete hs₁ hi.lt m hr, hp.2.trans ⟨rfl, rfl, rfl⟩⟩
  · have hs₁ : s₁.o3rob.size ≤ s₁.o3rob.cap := hp.2.size.symm ▸ hp.2.cap.symm ▸ hs
    refine ⟨hp.1.access hs₁ hi.lt _, hp.2.trans ?_⟩
    unfold O3Core.access
    dsimp only
    split <;> exact ⟨rfl, rfl, rfl⟩

theorem Named.clear (h : Named due t s) (hs : s.o3rob.size ≤ s.o3rob.cap) {j : Nat}
    (hj : j < s.o3rob.size) (k : Nat) (issued : (s.o3rob.get j).state = .issued) :
    Named due t (s.writeRob (s.o3rob.slot j) ((s.o3rob.get j).clear k)) :=
  h.write hs hj (fun _ => issued) (fun _ hn => (O3Rob.waitsFor_clear.mp hn).1) fun hx => by
    have hx : (s.o3rob.get j).state = .completed := hx
    rw [issued] at hx
    cases hx

structure Awake (t : Nat) (s : O3Core) : Prop where
  ahead : ∀ u ∈ s.events, t ≤ u
  completed : ∀ i < s.o3rob.size, (s.o3rob.get i).state = .completed →
    (s.o3rob.get i).readyTime ∈ s.events ∨ (s.o3rob.get i).readyTime ≤ t
  older : ∀ j < s.o3rob.size, (s.o3rob.get j).state = .issued →
    ∀ k, (s.o3rob.get j).waitsFor k → ∃ i < j, k = s.o3rob.slot i ∧
      (s.o3rob.get i).done t = false

structure Lighter (s s' : O3Core) : Prop extends SamePlace s s' where
  state : ∀ j < s.o3rob.size, (s'.o3rob.get j).state = (s.o3rob.get j).state
  readyTime : ∀ j < s.o3rob.size, (s'.o3rob.get j).readyTime = (s.o3rob.get j).readyTime
  waits : ∀ j < s.o3rob.size, ∀ k, (s'.o3rob.get j).waitsFor k → (s.o3rob.get j).waitsFor k

theorem Lighter.refl (s : O3Core) : Lighter s s :=
  ⟨SamePlace.refl s, fun _ _ => rfl, fun _ _ => rfl, fun _ _ _ h => h⟩

theorem Lighter.trans {s₁ s₂ s₃ : O3Core} (h : Lighter s₁ s₂) (h' : Lighter s₂ s₃) :
    Lighter s₁ s₃ where
  toSamePlace := h.toSamePlace.trans h'.toSamePlace
  state j hj := (h'.state j (h.size.symm ▸ hj)).trans (h.state j hj)
  readyTime j hj := (h'.readyTime j (h.size.symm ▸ hj)).trans (h.readyTime j hj)
  waits j hj k hk := h.waits j hj k (h'.waits j (h.size.symm ▸ hj) k hk)

theorem Lighter.wakes (h : Lighter s s') {i : Nat} (hi : i < s.o3rob.size) :
    Wakes t i s' ↔ Wakes t i s := by
  unfold Wakes
  rw [h.state i hi, h.readyTime i hi]

theorem clearOne_lighter (hs : s.o3rob.size ≤ s.o3rob.cap) {j : Nat} (hj : j < s.o3rob.size)
    (k : Nat) : Lighter s (clearOne k s j) ∧ ((s.o3rob.get j).state = .issued →
      ¬ ((clearOne k s j).o3rob.get j).waitsFor k) := by
  by_cases issued : (s.o3rob.get j).state = .issued
  · have one : clearOne k s j = s.writeRob (s.o3rob.slot j) ((s.o3rob.get j).clear k) :=
      if_neg (not_not.mpr issued)
    have get := fun n (hn : n < s.o3rob.size) => writeRob_get hs hj hn ((s.o3rob.get j).clear k)
    rw [one]
    refine ⟨⟨⟨rfl, rfl, rfl⟩, fun n hn => ?_, fun n hn => ?_, fun n hn m hm => ?_⟩, fun _ => ?_⟩
    · rw [get n hn]
      split
      · rename_i same
        rw [same]
        rfl
      · rfl
    · rw [get n hn]
      split
      · rename_i same
        rw [same]
        rfl
      · rfl
    · rw [get n hn] at hm
      split at hm
      · rename_i same
        rw [same]
        exact (O3Rob.waitsFor_clear.mp hm).1
      · exact hm
    · rw [get j hj, if_pos rfl]
      exact fun hw => (O3Rob.waitsFor_clear.mp hw).2 rfl
  · have one : clearOne k s j = s := if_pos issued
    rw [one]
    exact ⟨Lighter.refl s, fun hx => absurd hx issued⟩

theorem clearLoop_lighter (k : Nat) (js : List Nat) (hjs : ∀ j ∈ js, j < s.o3rob.size)
    (hs : s.o3rob.size ≤ s.o3rob.cap) : Lighter s (js.foldl (clearOne k) s) ∧
      ∀ j ∈ js, (s.o3rob.get j).state = .issued →
        ¬ ((js.foldl (clearOne k) s).o3rob.get j).waitsFor k := by
  induction js generalizing s with
  | nil => exact ⟨Lighter.refl s, by simp⟩
  | cons j js ih =>
    have hj := hjs j List.mem_cons_self
    obtain ⟨first, cleared⟩ := clearOne_lighter hs hj k
    have size := first.size
    have rest := ih (s := clearOne k s j)
      (fun n hn => size.symm ▸ hjs n (List.mem_cons_of_mem _ hn))
      (size.symm ▸ first.cap.symm ▸ hs)
    rw [List.foldl_cons]
    refine ⟨first.trans rest.1, fun n hn hx => ?_⟩
    rcases List.mem_cons.mp hn with rfl | hn
    · exact fun hw => cleared hx (rest.1.waits n (size.symm ▸ hj) k hw)
    · refine rest.2 n hn ?_
      rw [first.state n (hjs n (List.mem_cons_of_mem _ hn))]
      exact hx

theorem wakeOne_lighter (cfg : O3CoreConfig) (t : Nat) (hs : s.o3rob.size ≤ s.o3rob.cap) (i : Nat) :
    Lighter s (wakeOne cfg t s i) ∧ (Wakes t i s → ∀ j < s.o3rob.size, i < j →
      (s.o3rob.get j).state = .issued →
      ¬ ((wakeOne cfg t s i).o3rob.get j).waitsFor (s.o3rob.slot i)) := by
  by_cases hw : Wakes t i s
  · have one : wakeOne cfg t s i = (List.range' (i + 1) (s.o3rob.size - (i + 1))).foldl
        (clearOne (s.o3rob.slot i)) (O3Core.retry cfg t s) := if_pos hw
    have behind : ∀ j, j ∈ List.range' (i + 1) (s.o3rob.size - (i + 1)) ↔
        i < j ∧ j < s.o3rob.size := by
      intro j
      rw [List.mem_range'_1]
      omega
    obtain ⟨lighter, cleared⟩ := clearLoop_lighter (s := O3Core.retry cfg t s) (s.o3rob.slot i) _
      (fun j hj => ((behind j).mp hj).2) hs
    rw [one]
    refine ⟨⟨⟨lighter.head, lighter.size, lighter.cap⟩, lighter.state, lighter.readyTime,
      lighter.waits⟩, fun _ j hj hij hx => cleared j ((behind j).mpr ⟨hij, hj⟩) hx⟩
  · have one : wakeOne cfg t s i = s := if_neg hw
    rw [one]
    exact ⟨Lighter.refl s, fun h => absurd h hw⟩

theorem wakeLoop_lighter (cfg : O3CoreConfig) (t : Nat) (is : List Nat)
    (his : ∀ i ∈ is, i < s.o3rob.size) (hs : s.o3rob.size ≤ s.o3rob.cap) :
      Lighter s (is.foldl (wakeOne cfg t) s) ∧
      ∀ i ∈ is, Wakes t i s → ∀ j < s.o3rob.size, i < j → (s.o3rob.get j).state = .issued →
        ¬ ((is.foldl (wakeOne cfg t) s).o3rob.get j).waitsFor (s.o3rob.slot i) := by
  induction is generalizing s with
  | nil => exact ⟨Lighter.refl s, by simp⟩
  | cons i is ih =>
    obtain ⟨first, cleared⟩ := wakeOne_lighter cfg t hs i
    have size := first.size
    have rest := ih (s := wakeOne cfg t s i)
      (fun n hn => size.symm ▸ his n (List.mem_cons_of_mem _ hn))
      (size.symm ▸ first.cap.symm ▸ hs)
    rw [List.foldl_cons]
    refine ⟨first.trans rest.1, fun n hn hw j hj hnj hx => ?_⟩
    rcases List.mem_cons.mp hn with rfl | hn
    · exact fun hk => cleared hw j hj hnj hx (rest.1.waits j (size.symm ▸ hj) _ hk)
    · rw [← first.slot n]
      refine rest.2 n hn ((first.wakes (his n (List.mem_cons_of_mem _ hn))).mpr hw) j
        (size.symm ▸ hj) hnj ?_
      rw [first.state j hj]
      exact hx

theorem wake_lighter (cfg : O3CoreConfig) (t : Nat) (hs : s.o3rob.size ≤ s.o3rob.cap) :
    Lighter s (wake cfg t s) ∧
    ∀ i < s.o3rob.size, Wakes t i s → ∀ j < s.o3rob.size, i < j →
      (s.o3rob.get j).state = .issued →
      ¬ ((wake cfg t s).o3rob.get j).waitsFor (s.o3rob.slot i) := by
  obtain ⟨lighter, cleared⟩ := wakeLoop_lighter cfg t (List.range s.o3rob.size)
    (fun i hi => List.mem_range.mp hi) hs
  exact ⟨lighter, fun i hi => cleared i (List.mem_range.mpr hi)⟩

theorem Named.wake (cfg : O3CoreConfig) (h : Named (· = t) t s) (hs : s.o3rob.size ≤ s.o3rob.cap) :
    Awake t (O3Core.wake cfg t s) := by
  have kept : Named (· = t) t (O3Core.wake cfg t s) :=
    (wake_keeps (P := fun s => Named (· = t) t s) (fun _ hp => hp.retry)
      (fun s₁ i j hp _ hj hs₁ _ issued => hp.clear hs₁ hj _ issued) hs h).1
  obtain ⟨lighter, cleared⟩ := wake_lighter cfg t hs
  refine ⟨kept.ahead, kept.completed, fun j hj hx k hk => ?_⟩
  obtain ⟨i, hij, rfl, hc⟩ := kept.older j hj hx k hk
  have hj : j < s.o3rob.size := lighter.size ▸ hj
  have hi := hij.trans hj
  refine ⟨i, hij, rfl, Bool.eq_false_iff.mpr fun hd => ?_⟩
  obtain ⟨hcomp, hle⟩ := O3Rob.done_iff.mp hd
  have now : (s.o3rob.get i).readyTime = t := by
    rw [lighter.readyTime i hi] at hle hc
    rcases hc hcomp with hm | he
    · exact le_antisymm hle (kept.ahead _ hm)
    · exact he
  have wakes : Wakes t i s := ⟨by rw [← lighter.state i hi]; exact hcomp, now⟩
  rw [lighter.state j hj] at hx
  rw [lighter.slot] at hk
  exact cleared i hi wakes j hj hij hx hk

theorem Awake.named (h : Awake t s) : Named (fun _ => False) t s where
  ahead := h.ahead
  completed := h.completed
  older j hj hx k hk := by
    obtain ⟨i, hij, rfl, hd⟩ := h.older j hj hx k hk
    refine ⟨i, hij, rfl, fun hc => .inl ?_⟩
    rcases h.completed i (hij.trans hj) hc with hm | hle
    · exact hm
    · rw [O3Rob.done_iff.mpr ⟨hc, hle⟩] at hd
      cases hd

theorem Awake.retry (h : Awake t s) : Awake t (retry cfg t s) :=
  have retried : Named (fun _ => False) t (O3Core.retry cfg t s) := h.named.retry
  ⟨retried.ahead, retried.completed, h.older⟩

theorem Awake.commitOne (h : Awake t s) (hr : Rings cfg s)
    (hd : (s.o3rob.slots s.o3rob.head).done t = true) : Awake t s.commitOne where
  ahead := h.ahead
  completed i hi hc := by
    have hi : i + 1 < s.o3rob.size := Nat.add_lt_of_lt_sub hi
    rw [commitOne_get hr hi] at hc ⊢
    exact h.completed (i + 1) hi hc
  older j hj hx k hk := by
    have hj : j + 1 < s.o3rob.size := Nat.add_lt_of_lt_sub hj
    rw [commitOne_get hr hj] at hx hk
    obtain ⟨i, hij, rfl, hn⟩ := h.older (j + 1) hj hx k hk
    cases i with
    | zero =>
      rw [RingBuffer.get, RingBuffer.slot_zero hr.robHead, hd] at hn
      cases hn
    | succ i =>
      refine ⟨i, Nat.lt_of_succ_lt_succ hij, (commitOne_slot i).symm, ?_⟩
      rw [commitOne_get hr (hij.trans hj)]
      exact hn

theorem Awake.commit (h : Awake t s) (hc : Consistent cfg s) : Awake t (commit cfg t s) :=
  (commit_keeps (P := fun s => Awake t s ∧ Consistent cfg s)
    (fun _ hp => ⟨hp.1.retry, retry_consistent hp.2⟩)
    (fun _ hp hs hd => ⟨hp.1.commitOne hp.2.rings hd, commitOne_consistent hp.2 hs hd⟩) ⟨h, hc⟩).1

theorem Named.later (h : Named due t s) {u : Nat} (hu : t ≤ u) (ahead : ∀ v ∈ s.events, u ≤ v) :
    Named due u s where
  ahead := ahead
  completed i hi hc := (h.completed i hi hc).imp id fun hl => hl.trans hu
  older := h.older

theorem Named.take (h : Named (fun _ => False) t s) :
    Named (· = t) t (s.take t) where
  ahead u hu := h.ahead u (Finset.mem_of_mem_erase hu)
  completed i hi hc := by
    rcases h.completed i hi hc with hm | hl
    · by_cases he : (s.o3rob.get i).readyTime = t
      · exact .inr he.le
      · exact .inl (Finset.mem_erase.mpr ⟨he, hm⟩)
    · exact .inr hl
  older j hj hx k hk := by
    obtain ⟨i, hij, rfl, hc⟩ := h.older j hj hx k hk
    refine ⟨i, hij, rfl, fun hx => ?_⟩
    have hm : (s.o3rob.get i).readyTime ∈ s.events := (hc hx).resolve_right id
    by_cases he : (s.o3rob.get i).readyTime = t
    · exact .inr he
    · exact .inl (Finset.mem_erase.mpr ⟨he, hm⟩)

theorem Named.fetch (h : Named due t s) (hs : s.o3queue.size ≤ s.o3queue.cap) :
    Named due t (fetch cfg t s) := by
  have fetched : Fetched cfg s (O3Core.fetch cfg t s) := (fetch_fetched hs).1
  have rob : (O3Core.fetch cfg t s).o3rob = s.o3rob := fetched.same O3Core.o3rob fun _ _ _ => rfl
  have events : (O3Core.fetch cfg t s).events = s.events :=
    fetched.same O3Core.events fun _ _ _ => rfl
  refine h.of_same rob ?_ ?_
  · rw [events]
  · rw [events]
    exact h.ahead

theorem Named.phases (h : Named (· = t) t s) (hc : Consistent cfg s) :
    Awake t (O3Core.phases cfg t s) := by
  have fetched : Fetched cfg s (O3Core.fetch cfg t s) := (fetch_fetched hc.rings.queueSize).1
  have consistent := fetched.consistent hc
  have issued := (h.fetch hc.rings.queueSize).issue consistent
  have executed := execute_consistent (t := t) issued.2
  have awake := (issued.1.execute issued.2.rings.robSize.le).1.wake cfg executed.rings.robSize.le
  exact awake.commit (wake_consistent executed)

theorem phases_now (hc : Consistent cfg s) : (O3Core.phases cfg t s).now = s.now := by
  have fetched : Fetched cfg s (O3Core.fetch cfg t s) := (fetch_fetched hc.rings.queueSize).1
  have consistent := fetched.consistent hc
  have issued : (O3Core.issue cfg t (O3Core.fetch cfg t s)).now = s.now ∧
      Consistent cfg (O3Core.issue cfg t (O3Core.fetch cfg t s)) :=
    issueLoop_keeps (P := fun s₁ => s₁.now = s.now ∧ Consistent cfg s₁) (fun s₁ hp hq room _ _ => by
      obtain ⟨s₂, parts, eq⟩ := issueInstr_parts cfg t (s₁.o3queue.slots s₁.o3queue.head).instr
        (s := s₁) (by rw [hp.2.rings.robCap]; omega)
      have grown : s₂.now = s₁.now := parts.grown.same O3Core.now fun _ _ => rfl
      refine ⟨?_, issueInstr_consistent hp.2 hq room⟩
      rw [eq]
      exact grown.trans hp.1) _ ⟨fetched.same O3Core.now fun _ _ _ => rfl, consistent⟩
  have executed : (O3Core.execute cfg t (O3Core.issue cfg t (O3Core.fetch cfg t s))).now = s.now :=
    execute_keeps (P := fun s₁ => s₁.now = s.now) (fun _ hp => hp) (fun _ _ _ _ hp _ _ _ => hp)
      (fun s₁ i hp _ _ => by
        unfold O3Core.access
        dsimp only
        split <;> exact hp) issued.1
  have woken : (O3Core.wake cfg t (O3Core.execute cfg t (O3Core.issue cfg t
      (O3Core.fetch cfg t s)))).now = s.now :=
    (wake_keeps (P := fun s₁ => s₁.now = s.now) (fun _ hp => hp) (fun _ _ _ hp _ _ _ _ _ => hp)
      (execute_consistent issued.2).rings.robSize.le executed).1
  exact commit_keeps (P := fun s₁ => s₁.now = s.now) (fun _ hp => hp) (fun _ hp _ _ => hp) woken

theorem dispatch_now (hc : Consistent cfg s) : (dispatch cfg s t).1.now = t := by
  have consistent : Consistent cfg (s.take t) :=
    hc.of_same rfl rfl rfl rfl rfl rfl
  have now : (skip cfg t (s.take t)).now = t := skip_now
  unfold dispatch processEvent
  dsimp only
  split
  · exact now
  · exact (phases_now (skip_consistent consistent)).trans now

theorem dispatch_named (h : Named (fun _ => False) s.now s) (hc : Consistent cfg s)
    (hs : s.now ≤ t) (ahead : ∀ u ∈ s.events, t ≤ u) :
    Named (fun _ => False) t (dispatch cfg s t).1 ∧
      ((skip cfg t s).hungry cfg = false → Awake t (dispatch cfg s t).1) := by
  have later := h.later hs ahead
  have taken := later.take
  have consistent : Consistent cfg (s.take t) :=
    hc.of_same rfl rfl rfl rfl rfl rfl
  have skipped : Named (· = t) t (skip cfg t (s.take t)) :=
    taken.of_same skip_rob (by rw [skip_events]) (by rw [skip_events]; exact taken.ahead)
  unfold dispatch processEvent
  dsimp only
  rw [hungry_take]
  cases hh : (skip cfg t s).hungry cfg with
  | true =>
    refine ⟨?_, fun hn => by cases hn⟩
    refine later.of_same (skip_rob (s := s.take t)) ?_ ?_
    · intro u hu
      show u ∈ insert t _
      rw [skip_events]
      by_cases he : u = t
      · exact he ▸ Finset.mem_insert_self _ _
      · exact Finset.mem_insert_of_mem (Finset.mem_erase.mpr ⟨he, hu⟩)
    · intro u hu
      have hu : u ∈ insert t (skip cfg t (s.take t)).events := hu
      rw [skip_events] at hu
      rcases Finset.mem_insert.mp hu with rfl | hu
      · exact le_rfl
      · exact ahead u (Finset.mem_of_mem_erase hu)
  | false =>
    have awake := skipped.phases (skip_consistent consistent)
    exact ⟨awake.named, fun _ => awake⟩

theorem le_served {time : Nat} (h : t ≤ time) : t ≤ ceilByY time cfg.processInterval :=
  h.trans (le_ceilByY cfg.intervalPos)

theorem Named.served (h : Named due t s) {u : Nat} (hu : t ≤ u) : Named due t (s.served u) :=
  have added := h.addEvent hu
  added.of_same rfl (Finset.Subset.refl _) added.ahead

theorem answer_named (h : Named (fun _ => False) s.now s) (hc : Consistent cfg s) {n time : Nat}
    {type : EventType} (ht : s.now ≤ time) (hs : answer cfg s n type time = .ok s') :
    s'.now = s.now ∧ Named (fun _ => False) s.now s' := by
  have taken : Named (fun _ => False) s.now (s.answered n) :=
    h.of_same rfl (Finset.Subset.refl _) h.ahead
  have aligned : s.now ≤ ceilByY time cfg.processInterval := le_served ht
  obtain ⟨call, hcall, ⟨isf, hs⟩ | ⟨isa, hs⟩⟩ := answer_cases hs
  · rcases addReqEvent_cases hs with ⟨nacks, delay, rfl⟩ | rfl
    · exact ⟨rfl, taken.of_same rfl (Finset.Subset.refl _) taken.ahead⟩
    · have served := taken.served aligned
      generalize ceilByY time cfg.processInterval = u at served
      have events : (loaded cfg (s.answered n) u call.lqe.address).events =
          ((s.answered n).served u).events := loaded_events
      exact ⟨loaded_now, served.of_same loaded_rob (events.symm ▸ Finset.Subset.refl _)
        (events.symm ▸ served.ahead)⟩
  · obtain ⟨i, hi, hx, entry, -⟩ := hc.awaits.entry call
      (List.mem_filter.mpr ⟨List.mem_of_getElem? hcall, isa⟩)
    rcases addRepEvent_cases hs with ⟨nacks, kind, delay, rfl⟩ | ⟨r, hr, rfl⟩
    · exact ⟨rfl, taken.of_same rfl (Finset.Subset.refl _) taken.ahead⟩
    · have served := taken.served aligned
      rw [entry, Int.toNat_natCast]
      exact ⟨rfl, served.complete (s := (s.answered n).served (ceilByY time cfg.processInterval))
        hc.rings.robSize.le hi s.isMigrateReady (aligned.trans hr)⟩

theorem step_named (h : Named (fun _ => False) s.now s) (hc : Consistent cfg s) {e : CoreEvent}
    (ht : s.Timely e) (hs : step cfg s e = .ok s') : Named (fun _ => False) s'.now s' := by
  cases e with
  | addInstruction x =>
    cases hs
    have woken : Named (fun _ => False) s.now (s.wakeUp x.currTime) ∧
        (s.wakeUp x.currTime).now = s.now := by
      unfold wakeUp
      split
      · exact ⟨h.addEvent ht, rfl⟩
      · exact ⟨h, rfl⟩
    have same := woken.2
    have named := woken.1
    unfold addInstruction
    dsimp only
    split
    · exact same.symm ▸ named.of_same rfl (Finset.Subset.refl _) named.ahead
    · exact same.symm ▸ named.of_same rfl (Finset.Subset.refl _) named.ahead
  | setActive isActive =>
    cases hs
    exact h.of_same rfl (Finset.Subset.refl _) h.ahead
  | processEvent t =>
    cases hs
    have now : (dispatch cfg s t).1.now = t := dispatch_now hc
    rw [now]
    exact (dispatch_named h hc (h.ahead t ht.1) ht.2).1
  | answer n type time =>
    obtain ⟨now, named⟩ := answer_named h hc ht hs
    exact now.symm ▸ named
  | migrate isMigrateReady =>
    cases hs
    exact h.of_same rfl (Finset.Subset.refl _) h.ahead
  | advance t =>
    cases hs
    exact (h.later ht.1 ht.2).of_same rfl (Finset.Subset.refl _) ht.2

theorem init_named (cfg : O3CoreConfig) : Named (fun _ => False) (init cfg).now (init cfg) where
  ahead _ hu := absurd hu (Finset.notMem_empty _)
  completed _ hi := absurd hi (Nat.not_lt_zero _)
  older _ hj := absurd hj (Nat.not_lt_zero _)

theorem timely_named {ok : O3Core → CoreEvent → Prop} (h : TimelyRun cfg ok s) :
    Named (fun _ => False) s.now s := by
  induction h with
  | init => exact init_named cfg
  | step e hr ht _ hs ih => exact step_named ih (run_consistent hr.run) ht hs

end O3Core
end McSim
