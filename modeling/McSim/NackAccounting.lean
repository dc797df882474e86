import McSim.TrafficParts

/-! The counters of nacks, misses and accesses.
A miss of a cache puts the name of the cache on a stack, and a nack takes it off again. While no
nack is for an upgrade, there are as many misses that are not taken back as the name is on
stacks. -/

namespace McSim

open Contract Weighing

variable {C : Type}

section Names
variable [DecidableEq C] {x c : C} {path : List C}

/-- What an L1 asks for on its own has only the name of the L1 on the stack, and is not counted. -/
def names (isL1 : Bool) (x : C) (path : List C) : Nat :=
  if isL1 then path.dropLast.count x else path.count x

theorem names_le_cons (isL1 : Bool) (x c : C) (path : List C) :
    names isL1 x path ≤ names isL1 x (c :: path) := by
  cases isL1 with
  | false => exact (List.sublist_cons_self c path).count_le x
  | true =>
    cases path with
    | nil => exact Nat.zero_le _
    | cons d path => exact (List.sublist_cons_self c (d :: path).dropLast).count_le x

theorem names_cons_le (isL1 : Bool) (x c : C) (path : List C) :
    names isL1 x (c :: path) ≤ names isL1 x path + if c = x then 1 else 0 := by
  have one : ∀ l : List C, (c :: l).count x ≤ l.count x + if c = x then 1 else 0 := fun l => by
    simp [List.count_cons]
  cases isL1 with
  | false => exact one path
  | true =>
    cases path with
    | nil => exact Nat.zero_le _
    | cons d path => exact one (d :: path).dropLast

theorem names_cons_self (isL1 : Bool) (x : C) (path : List C) (h : isL1 = false ∨ path ≠ []) :
    names isL1 x path + 1 = names isL1 x (x :: path) := by
  cases isL1 with
  | false => simp [names]
  | true =>
    cases path with
    | nil => simp at h
    | cons d path =>
      show (d :: path).dropLast.count x + 1 = (x :: (d :: path).dropLast).count x
      simp

end Names

namespace Machine

variable [LinearOrder C] (m : Machine C) {x c : C} {u paid : Finset (Option Nat)}

/-- How often `x` has counted a miss that is on a stack, but for the upgrades in `u` -/
def weight (x : C) (u : Finset (Option Nat)) : Weight C where
  of path serial := if serial ∈ u then 0 else names (m.part x).isL1 x path
  empty := by
    split
    · rfl
    · simp [names]
  tail_le path serial := by
    split
    · exact le_rfl
    · cases path with
      | nil => exact le_rfl
      | cons c path => exact names_le_cons _ x c path

theorem weight_mono (x : C) {u' : Finset (Option Nat)} (h : u ⊆ u') (path : List C)
    (serial : Option Nat) :
    (m.weight x u').of path serial ≤ (m.weight x u).of path serial := by
  simp only [weight]
  split
  · exact Nat.zero_le _
  · rename_i late
    rw [if_neg fun mem => late (h mem)]

omit [LinearOrder C] in
theorem wired (c : C) : (m.part c).Wired m.part c := by
  cases h : m.part c with
  | core | crossbar => trivial
  | cachel1 cfg n => exact m.cachel1_wired c cfg n h
  | cachel2 cfg n => exact m.cachel2_wired c cfg n h
  | directory cfg =>
    obtain ⟨self, memory, xbar, crossbar⟩ := m.directory_wired c cfg h
    exact ⟨self, memory, by rw [crossbar]; rfl⟩
  | memoryController cfg =>
    obtain ⟨dir, directory⟩ := m.memoryController_wired c cfg h
    show (m.part cfg.directory).isCache = false
    rw [directory]
    rfl

theorem priced (hx : (m.part x).isCache) (hpaid : c = x → paid = u) :
    (m.part c).Priced (m.weight x u) c (if c = x then 1 else 0) paid := by
  have back : ∀ path, (m.part x).isL1 = false ∨ path ≠ [] → ∀ serial ∉ paid,
      (m.weight x u).of path serial + (if c = x then 1 else 0) ≤ (m.weight x u).of
        (c :: path) serial := by
    intro path h serial late
    simp only [weight]
    by_cases hc : c = x
    · subst hc
      rw [hpaid rfl] at late
      rw [if_neg late, if_neg late, if_pos rfl]
      exact (names_cons_self _ c path h).le
    · rw [if_neg hc]
      split
      · exact le_rfl
      · exact names_le_cons _ x c path
  refine ⟨⟨fun path serial => ?_, fun path serial mem => ?_, fun path h => back path (.inr h)⟩,
    fun h => if_neg ?_, fun h => ?_, fun h path => ?_⟩
  · simp only [weight]
    split
    · exact Nat.zero_le _
    · exact names_cons_le _ x c path
  · simp only [weight]
    by_cases hc : c = x
    · rw [if_pos (hpaid hc ▸ mem)]
      exact Nat.zero_le _
    · have push := names_cons_le (m.part x).isL1 x c path
      rw [if_neg hc, Nat.add_zero] at push
      split
      · exact le_rfl
      · exact push
  · rintro rfl
    cases h.symm.trans hx
  · simp only [weight]
    split
    · rfl
    · cases hl : (m.part x).isL1 with
      | true => rfl
      | false =>
        have other : c ≠ x := by
          rintro rfl
          cases hl.symm.trans h
        simp [names, other]
  · by_cases hl : (m.part x).isL1 = false
    · exact back path (.inl hl)
    · intro serial late
      have other : c ≠ x := by
        rintro rfl
        exact hl h
      rw [if_neg other]
      simp only [weight]
      split
      · exact le_rfl
      · exact names_le_cons _ x c path

end Machine

/-- What a call leaves with its callee. A core keeps nothing. -/
def Weight.kept (w : Weight C) (part : C → Part C) (call : Call C) : Nat :=
  if (part call.callee).isCore then 0 else w.charge part call

theorem Weight.kept_le_charge (w : Weight C) (part : C → Part C) (call : Call C) :
    w.kept part call ≤ w.charge part call := by
  unfold Weight.kept
  split
  · exact Nat.zero_le _
  · exact le_rfl

theorem Part.add_core {p : Part C} (h : p.isCore) (source : C) (call : Call C) (s : p.State) :
    p.add source call s = .ok { state := s } := by
  cases p with
  | core => rfl
  | cachel1 | cachel2 | directory | crossbar | memoryController => cases h

namespace System

variable {m : Machine C} {w : Weight C} {source : C}

def counts (s : System m) (c : C) : Counts := (m.part c).counts (s.state c)

def carried (w : Weight C) (parts : Finset C) (lines : Finset Nat)
    (state : (c : C) → (m.part c).State) :
    Nat :=
  ∑ c ∈ parts, w.inside lines (m.part c) (state c)

def AllSound (state : (c : C) → (m.part c).State) : Prop := ∀ c, (m.part c).Sound c (state c)

def Uncounted (state state' : (c : C) → (m.part c).State) : Prop :=
  ∀ c, (m.part c).counts (state' c) = (m.part c).counts (state c)

theorem carried_mono {parts parts' : Finset C} {lines lines' : Finset Nat} (h : parts ⊆ parts')
    (hl : lines ⊆ lines') (state : (c : C) → (m.part c).State) :
    carried w parts lines state ≤ carried w parts' lines' state :=
  (Finset.sum_le_sum fun c _ => Weight.inside_subset hl (m.part c) (state c)).trans
    (Finset.sum_le_sum_of_subset h)

theorem carried_lighter {w' : Weight C} (h : ∀ path serial, w'.of path serial ≤ w.of path serial)
    (parts : Finset C) (lines : Finset Nat) (state : (c : C) → (m.part c).State) :
    carried w' parts lines state ≤ carried w parts lines state :=
  Finset.sum_le_sum fun c _ => Weight.inside_mono h lines (m.part c) (state c)

section Calls
variable [LinearOrder C]

theorem carried_update {parts : Finset C} {c : C} (h : c ∈ parts) (lines : Finset Nat)
    (state : (c : C) → (m.part c).State) (s : (m.part c).State) :
    carried w parts lines (Function.update state c s) + w.inside lines (m.part c) (state c) =
      carried w parts lines state + w.inside lines (m.part c) s :=
  sum_update state (fun c => w.inside lines (m.part c)) h s

theorem AllSound.update {state : (c : C) → (m.part c).State} (h : AllSound state) {c : C}
    {s : (m.part c).State} (hs : (m.part c).Sound c s) : AllSound (Function.update state c s) := by
  intro d
  by_cases hd : d = c
  · subst hd
    rw [Function.update_self]
    exact hs
  · rw [Function.update_of_ne hd]
    exact h d

theorem Uncounted.update {state : (c : C) → (m.part c).State} {c : C} {s : (m.part c).State}
    (h : (m.part c).counts s = (m.part c).counts (state c)) :
    Uncounted state (Function.update state c s) := by
  intro d
  by_cases hd : d = c
  · subst hd
    rw [Function.update_self]
    exact h
  · rw [Function.update_of_ne hd]

structure Placed (w : Weight C) (n n' : Nat) (s s' : Midway m) : Prop where
  weighs : ∃ near : Finset C, ∀ parts, near ⊆ parts → ∀ lines,
    carried w parts lines s'.state + n' ≤ carried w parts lines s.state + n
  counts : Uncounted s.state s'.state
  sound : AllSound s'.state

omit [LinearOrder C] in
theorem Placed.refl {s : Midway m} (sound : AllSound s.state) : Placed w 0 0 s s :=
  ⟨⟨∅, fun _ _ _ => le_rfl⟩, fun _ => rfl, sound⟩

theorem Placed.trans {n n' k k' j j' : Nat} {s s₁ s₂ : Midway m} (h : Placed w n n' s s₁)
    (h' : Placed w k k' s₁ s₂) (hn : j' + n + k ≤ j + n' + k') : Placed w j j' s s₂ := by
  obtain ⟨near, less⟩ := h.weighs
  obtain ⟨near', less'⟩ := h'.weighs
  refine ⟨⟨near ∪ near', fun parts sub lines => ?_⟩, fun c => (h'.counts c).trans (h.counts c),
    h'.sound⟩
  have first := less parts (Finset.union_subset_left sub) lines
  have second := less' parts (Finset.union_subset_right sub) lines
  omega

omit [LinearOrder C] in
theorem Placed.mono {n n' k : Nat} {s s' : Midway m} (h : Placed w n k s s') (hn : n ≤ n') :
    Placed w n' k s s' := by
  obtain ⟨near, less⟩ := h.weighs
  refine ⟨⟨near, fun parts sub lines => ?_⟩, h.counts, h.sound⟩
  have := less parts sub lines
  omega

theorem place_placed (w : Weight C) {s : Midway m} (sound : AllSound s.state) {call : Call C}
    (routed : Routed m.part call) :
    Meets (fun _ => True)
      (fun r => ∃ k, Sends w m.part k r.2 ∧ Placed w (w.kept m.part call) k s r.1)
      (place source s call) := by
  unfold place
  by_cases core : (m.part call.callee).isCore
  · rw [Part.add_core core]
    refine ⟨0, .nil, ⟨∅, fun parts _ lines => ?_⟩, fun c => ?_, ?_⟩
    · dsimp only
      rw [Function.update_eq_self]
      exact Nat.le_add_right _ _
    · dsimp only
      rw [Function.update_eq_self]
    · dsimp only
      rw [Function.update_eq_self]
      exact sound
  · rw [meets_bind]
    refine Meets.mono (Part.add_takes (w := w) source rfl (m.wired call.callee)
      (sound call.callee) routed)
      (fun r takes => ?_) fun _ h => h
    obtain ⟨k, sends, weighs⟩ := takes.weighs
    refine ⟨k, sends, ⟨{call.callee}, fun parts sub lines => ?_⟩, .update takes.counts,
      sound.update takes.sound⟩
    have change := carried_update (w := w) (Finset.singleton_subset_iff.mp sub) lines
      s.state r.state
    have less := weighs lines
    have kept : w.kept m.part call = w.charge m.part call := if_neg core
    show carried w parts lines (Function.update s.state call.callee r.state) + k ≤ _
    omega

theorem placeAll_placed (w : Weight C) (calls : List (Call C)) {s : Midway m}
    (sound : AllSound s.state) (routed : ∀ call ∈ calls, Routed m.part call) :
    Meets (fun _ => True) (Placed w (weigh (w.kept m.part) calls) 0 s)
      (placeAll source s calls) := by
  induction calls generalizing s with
  | nil => exact Placed.refl sound
  | cons call calls ih =>
    unfold placeAll
    rw [meets_bind]
    refine (place_placed w sound (routed call List.mem_cons_self)).mono (fun r ⟨k, _, first⟩ => ?_)
      fun _ h => h
    refine (ih first.sound fun c hc => routed c (List.mem_cons_of_mem call hc)).mono
      (fun s' rest => ?_)
      fun _ h => h
    refine first.trans rest ?_
    rw [weigh_cons]
    omega

theorem post_placed (w : Weight C) (calls : List (Call C)) {s : Midway m} (sound : AllSound s.state)
    (routed : ∀ call ∈ calls, Routed m.part call) :
    Meets (fun _ => True) (Placed w (weigh (w.kept m.part) calls) 0 s) (post source s calls) := by
  induction calls generalizing s with
  | nil => exact Placed.refl sound
  | cons call calls ih =>
    unfold post
    rw [meets_bind]
    refine (place_placed w sound (routed call List.mem_cons_self)).mono
      (fun r ⟨k, answers, first⟩ => ?_)
      fun _ h => h
    dsimp only
    rw [meets_bind]
    refine (placeAll_placed w r.2 first.sound answers.routed).mono (fun s₁ second => ?_)
      fun _ h => h
    refine (ih second.sound fun c hc => routed c (List.mem_cons_of_mem call hc)).mono
      (fun s' rest => ?_)
      fun _ h => h
    have placed : Placed w (w.kept m.part call) 0 s s₁ := first.trans second (by
      have := answers.weighs
      have := weigh_mono (w.kept_le_charge m.part) r.2
      omega)
    refine placed.trans rest ?_
    rw [weigh_cons]
    omega

end Calls

/-- The misses of a cache that are not taken back are as many as what is on its way owes to it. -/
structure Accounted (m : Machine C) [LinearOrder C] (x : C) (s : System m) : Prop where
  owed : ∀ parts lines, ((m.part x).counts (s.state x)).numNack +
    carried (m.weight x (s.upgrades x)) parts lines s.state ≤ ((m.part x).counts (s.state x)).misses
  counted : ((m.part x).counts (s.state x)).misses ≤ ((m.part x).counts (s.state x)).accesses
  sound : AllSound s.state

section Runs
variable [LinearOrder C] {s s' : System m} {x c cache core : C} {t : Nat}

theorem Accounted.posted (h : Accounted m x s) {mid mid' : Midway m} {n : Nat}
    (placed : Placed (m.weight x (s.upgrades x)) n 0 mid mid') (hn : n = 0)
    (hmid : mid.state = s.state) (state : s'.state = mid'.state)
    (upgrades : s'.upgrades = s.upgrades) : Accounted m x s' := by
  obtain ⟨near, less⟩ := placed.weighs
  have counts : (m.part x).counts (s'.state x) = (m.part x).counts (s.state x) := by
    rw [state, placed.counts x, hmid]
  refine ⟨fun parts lines => ?_, ?_, by rw [state]; exact placed.sound⟩
  · rw [counts, upgrades, state]
    have owed := h.owed (parts ∪ near) lines
    have more : carried (m.weight x (s.upgrades x)) parts lines mid'.state ≤
        carried (m.weight x (s.upgrades x)) (parts ∪ near) lines mid'.state :=
      carried_mono Finset.subset_union_left (Finset.Subset.refl lines) _
    have kept := less (parts ∪ near) Finset.subset_union_right lines
    rw [hmid] at kept
    omega
  · rw [counts]
    exact h.counted

theorem Accounted.stepped (h : Accounted m x s) {u : Finset (Option Nat)} (grows : s.upgrades x ⊆ u)
    {r : (m.part c).Result} {mid : Midway m}
    (steps : Part.Steps (m.weight x u) m.part c (if c = x then 1 else 0) (m.part c) (s.state c) r)
    (placed : Placed (m.weight x u) (weigh ((m.weight x u).charge m.part) r.calls) 0
      { state := Function.update s.state c r.state } mid)
    (state : s'.state = mid.state) (upgrades : s'.upgrades x = u) : Accounted m x s' := by
  obtain ⟨nearLines, weighs⟩ := steps.weighs
  obtain ⟨near, less⟩ := placed.weighs
  have counts := placed.counts x
  refine ⟨fun parts lines => ?_, ?_, by rw [state]; exact placed.sound⟩
  · rw [state, upgrades, counts]
    have owed := h.owed (insert c parts ∪ near) (lines ∪ nearLines)
    have lighter := carried_lighter (m.weight_mono x grows) (insert c parts ∪ near)
      (lines ∪ nearLines)
      s.state
    have more : carried (m.weight x u) parts lines mid.state ≤
        carried (m.weight x u) (insert c parts ∪ near) (lines ∪ nearLines) mid.state :=
      carried_mono ((Finset.subset_insert c parts).trans Finset.subset_union_left)
        Finset.subset_union_left _
    have kept := less (insert c parts ∪ near) Finset.subset_union_right (lines ∪ nearLines)
    dsimp only at kept
    have change := carried_update (w := m.weight x u)
      (Finset.mem_union_left near (Finset.mem_insert_self c parts)) (lines ∪ nearLines)
        s.state r.state
    have spent := weighs (lines ∪ nearLines) Finset.subset_union_right
    by_cases hc : c = x
    · subst hc
      rw [if_pos rfl] at spent
      simp only [Function.update_self]
      omega
    · rw [if_neg hc] at spent
      simp only [Function.update_of_ne (Ne.symm hc)]
      omega
  · rw [state, counts]
    by_cases hc : c = x
    · subst hc
      simp only [Function.update_self]
      have := steps.counted
      have := h.counted
      omega
    · simp only [Function.update_of_ne (Ne.symm hc)]
      exact h.counted

/-- No cache processes a nack of a request that it counted as an upgrade. -/
def NackOk (t : Nat) (c : C) (s : System m) : Prop := (m.part c).NackOk t (s.upgrades c) (s.state c)

omit [LinearOrder C] in
instance (t : Nat) (c : C) (s : System m) : Decidable (NackOk t c s) :=
  inferInstanceAs (Decidable ((m.part c).NackOk t (s.upgrades c) (s.state c)))

end Runs

def lineShift : Nat := 6

def l1Of (self : Fin 8) : L1Config (Fin 8) where
  self
  isData := true
  cachel2 := 4
  setLsb := lineShift
  l2SetLsb := lineShift
  setLsb_le := Nat.le_refl lineShift
  numSets := 1
  numSets_pos := Nat.one_pos
  numBanks := 1
  numBanks_pos := Nat.one_pos
  numPreEntries := 1
  numPreEntries_pos := Nat.one_pos
  l1ToLsuT := 1
  l1ToL2T := 1
  alwaysHit := false
  usePrefetch := false
  processInterval := 1

def l2OfTwo : L2Config (Fin 8) where
  self := 4
  directory := 5
  directoryNum := 0
  crossbar := 7
  whichMc := fun _ => 0
  setLsb := 6
  numSets := 1
  numSets_pos := Nat.one_pos
  numBanks := 1
  numBanks_pos := Nat.one_pos
  l2ToL1T := 1
  l2ToDirT := 1
  l2ToXbarT := 1
  numFlitsPerPacket := 1
  alwaysHit := false
  processInterval := 1

def directoryOfTwo (dirToL2T : Nat) : DirConfig (Fin 8) where
  self := 5
  cachel2 := 4
  crossbar := 7
  crossbar_ne := by decide
  memoryController := 6
  l2s := [4]
  l2s_nodup := by decide
  self_notMem := by decide
  setLsb := 6
  numSets := 1
  numSets_pos := Nat.one_pos
  numWays := 1
  dirToMcT := 1
  dirToL2T
  dirToXbarT := 1
  numFlitsPerPacket := 1
  hasDirectoryCache := false
  useLimitless := false
  limitlessBroadcastThreshold := 0
  processInterval := 1

def mcOfTwo : McConfig (Fin 8) where
  directory := 5
  processInterval := 1
  processInterval_pos := Nat.one_pos
  tRCD := 1
  tRR := 1
  tRP := 1
  tCL := 1
  tBL := 1
  tBBL := 1
  tRAS := 1
  tWRBUB := 1
  tRWBUB := 1
  tRRBUB := 1
  tWTR := 1
  reqWindowSz := 4
  mcToDirT := 10
  rankInterleaveBaseBit := 6
  bankInterleaveBaseBit := 6
  pageSzBaseBit := 12
  mcInterleaveBaseBit := 12
  interleaveXorBaseBit := 20
  numMcs := 1
  numRanksPerMc := 1
  numBanksPerRank := 1
  parBs := false
  policy := .open
  refreshInterval := 0
  fullDuplex := false
  isFixedLatency := true
  isFixedBwNLatency := false

def crossbarOfTwo : CrossbarConfig (Fin 8) where
  processInterval := 1
  interval_pos := Nat.one_pos
  numPorts := 1
  ports_lt := by decide
  xbarToDirT := 1
  num := fun _ => 0
  directory := fun _ => 5
  whichMc := fun _ => 0

/-- Two cores, their L1s of one line, and an L2 of `numWays` lines, all of 64 bytes -/
def twoL1s (numWays dirToL2T : Nat) : Machine (Fin 8) where
  part
    | 0 | 1 => .core
    | 2 => .cachel1 (l1Of 2) 1
    | 3 => .cachel1 (l1Of 3) 1
    | 4 => .cachel2 l2OfTwo numWays
    | 5 => .directory (directoryOfTwo dirToL2T)
    | 6 => .memoryController mcOfTwo
    | 7 => .crossbar crossbarOfTwo
  mcs := [6]
  mem_mcs := by
    intro c hc
    rw [List.mem_singleton.mp hc]
    rfl
  cachel1_wired := by
    intro c cfg n h
    match c with
    | 2 | 3 => cases h; rfl
    | 0 | 1 | 4 | 5 | 6 | 7 => cases h
  cachel2_wired := by
    intro c cfg n h
    match c with
    | 4 => cases h; rfl
    | 0 | 1 | 2 | 3 | 5 | 6 | 7 => cases h
  directory_wired := by
    intro c cfg h
    match c with
    | 5 => cases h; exact ⟨rfl, rfl, _, rfl⟩
    | 0 | 1 | 2 | 3 | 4 | 6 | 7 => cases h
  memoryController_wired := by
    intro c cfg h
    match c with
    | 6 => cases h; exact ⟨_, rfl⟩
    | 0 | 1 | 2 | 3 | 4 | 5 | 7 => cases h

section Follow
variable [LinearOrder C] {ok : Nat → C → System m → Prop} [∀ t c s, Decidable (ok t c s)]

def follow (ok : Nat → C → System m → Prop) [∀ t c s, Decidable (ok t c s)] :
    Nat → System m → Except Abort (System m)
  | 0, s => return s
  | n + 1, s =>
    match s.next with
    | none => .error .fatal
    | some (t, c) =>
      if ok t c s then do
        let s' ← s.dispatch t c
        follow ok n s'
      else .error .fatal

theorem Run.follow (n : Nat) {s : System m} (run : Run m ok s) :
    Meets (fun _ => True) (Run m ok) (s.follow ok n) := by
  induction n generalizing s with
  | zero => exact run
  | succ n ih =>
    unfold System.follow
    split
    · trivial
    · rename_i t c next
      split
      · rename_i may
        cases hd : s.dispatch t c with
        | error a => trivial
        | ok s' => exact ih (run.dispatch next may hd)
      · trivial

end Follow

variable {numWays dirToL2T : Nat}

theorem twoL1s_core (core : Fin 8) (hc : core = 0 ∨ core = 1) :
    (twoL1s numWays dirToL2T).part core = .core := by
  rcases hc with rfl | rfl <;> rfl

def readLine (core : Fin 8) : Lqe (Fin 8) := { path := [core], type := .read, address := 64 }

def bothRead (numWays dirToL2T : Nat) : Except Abort (System (twoL1s numWays dirToL2T)) := do
  let s : System (twoL1s numWays dirToL2T) ← (init (twoL1s numWays dirToL2T)).request 2 0
    (readLine 0)
  s.request 3 s.queue.currTime (readLine 1)

end System
end McSim
