import McSim.MemoryControllerSelection

/-! Which request the memory controller picks.
The scan goes through the batch and takes a row hit before a row command; what it finds behind the
batch it takes at once. -/

namespace McSim.MemoryController

open Contract

variable {C : Type} {cfg : McConfig C} {s s' : MemoryController C} {t i : Nat} {lqe : Lqe C}

structure CanClose (cfg : McConfig C) (t : Nat) (s : MemoryController C) (lqe : Lqe C) (i : Nat) :
    Prop where
  opened : IsOpen (s.bank cfg lqe)
  miss : (s.bank cfg lqe).pageNum ≠ cfg.getPageNum lqe.address
  past : (s.bank cfg lqe).actionTime ≤ t
  tRCD : (s.bank cfg lqe).actionType = .activate →
    (s.bank cfg lqe).actionTime + cfg.ticks cfg.tRCD ≤ t
  tBBL : (s.bank cfg lqe).actionTime + cfg.ticks cfg.tBBL ≤ t
  policy : cfg.policy = .open
  needed : needPrecharge cfg s lqe i = true
  tRR : s.lastActivateTime (cfg.getRankNum lqe.address) + cfg.ticks cfg.tRR ≤ t

def RowReady (cfg : McConfig C) (t : Nat) (s : MemoryController C) (lqe : Lqe C) (i : Nat) : Prop :=
  CanActivate cfg t s lqe ∨ CanClose cfg t s lqe i

/-- A row hit that meets all constraints of bank, rank and bus -/
def HitReady (cfg : McConfig C) (t : Nat) (s : MemoryController C) (lqe : Lqe C) : Prop :=
  CanAccess cfg t s lqe ∧ (isRead lqe.type = true ∨ isWrite lqe.type = true)

/-- A command may be issued for request `i`. -/
def Issuable (cfg : McConfig C) (t : Nat) (s : MemoryController C) (lqe : Lqe C) (i : Nat) : Prop :=
  HitReady cfg t s lqe ∨ RowReady cfg t s lqe i

theorem RowReady.not_hit (h : RowReady cfg t s lqe i) : ¬ HitReady cfg t s lqe := fun hit => by
  rcases h with can | can
  · exact can.shut hit.1.opened
  · exact can.miss hit.1.hit

/-- What the scan compares requests by -/
def Scan.choice (c : Scan) : Option Nat × Bool × Int :=
  (c.candidate, c.pageHit, c.numReqFromTheSameThread)

def chooseRow (s : MemoryController C) (lqe : Lqe C) (i : Nat) (c : Scan) :
    Option Nat × Bool × Int :=
  let num := s.numReqFromATh lqe.thId
  if c.pageHit = false ∧ (num < c.numReqFromTheSameThread ∨
      num = c.numReqFromTheSameThread ∧ c.candidate = none) then (some i, false, num)
  else c.choice

def chooseHit (s : MemoryController C) (lqe : Lqe C) (i : Nat) (c : Scan) :
    Option Nat × Bool × Int :=
  let num := s.numReqFromATh lqe.thId
  if c.pageHit = false ∨ num < c.numReqFromTheSameThread then (some i, true, num) else c.choice

inductive Weighs (cfg : McConfig C) (t : Nat) (s : MemoryController C) (lqe : Lqe C) (i : Nat)
    (c c' : Scan) : Prop
  | hit (ready : HitReady cfg t s lqe) (choice : c'.choice = chooseHit s lqe i c)
  | row (ready : RowReady cfg t s lqe i) (choice : c'.choice = chooseRow s lqe i c)
  | pass (stuck : ¬ Issuable cfg t s lqe i) (choice : c'.choice = c.choice)

theorem offer_weighs {c : Scan}
    (ready : s.lastActivateTime (cfg.getRankNum lqe.address) + cfg.ticks cfg.tRR ≤ t →
      RowReady cfg t s lqe i)
    (stuck : ¬ s.lastActivateTime (cfg.getRankNum lqe.address) + cfg.ticks cfg.tRR ≤ t →
      ¬ Issuable cfg t s lqe i) : Weighs cfg t s lqe i c (offer cfg t s lqe i c) := by
  by_cases tRR : s.lastActivateTime (cfg.getRankNum lqe.address) + cfg.ticks cfg.tRR ≤ t
  · refine .row (ready tRR) ?_
    unfold offer chooseRow
    by_cases taken : c.pageHit = false ∧ (s.numReqFromATh lqe.thId < c.numReqFromTheSameThread ∨
        s.numReqFromATh lqe.thId = c.numReqFromTheSameThread ∧ c.candidate = none)
    · rw [if_pos taken, if_pos ⟨taken.1, tRR, taken.2⟩, ← taken.1]
      rfl
    · rw [if_neg taken, if_neg fun all => taken ⟨all.1, all.2.2⟩]
  · refine .pass (stuck tRR) ?_
    unfold offer
    rw [if_neg fun all => tRR all.2.1]

theorem offerHit_choice {c c₁ : Scan} (same : c₁.choice = c.choice) (met : Bool) :
    (offerHit s lqe i met c₁).choice = if met then chooseHit s lqe i c else c.choice := by
  obtain ⟨candidate, rest⟩ := Prod.mk.inj same
  obtain ⟨pageHit, num⟩ := Prod.mk.inj rest
  unfold offerHit chooseHit
  rw [← pageHit, ← num]
  cases met with
  | false => simpa using same
  | true =>
    by_cases taken : c₁.pageHit = false ∨ s.numReqFromATh lqe.thId < c₁.numReqFromTheSameThread
    · simp [taken, Scan.choice]
    · simpa [taken] using same

theorem offerHit_weighs {c c₁ : Scan} {met : Bool} (same : c₁.choice = c.choice)
    (ready : met = true → HitReady cfg t s lqe) (missed : met = false → ¬ HitReady cfg t s lqe)
    (row : ¬ RowReady cfg t s lqe i) : Weighs cfg t s lqe i c (offerHit s lqe i met c₁) := by
  have choice : (offerHit s lqe i met c₁).choice = if met then chooseHit s lqe i c else c.choice :=
    offerHit_choice same met
  cases met with
  | true => exact .hit (ready rfl) choice
  | false => exact .pass (fun issuable => issuable.elim (missed rfl) row) choice

theorem considerHit_weighs {c c' : Scan} (paths : Scanned cfg t s c)
    (can : (isRead lqe.type = true → readMeets cfg t s (cfg.getRankNum lqe.address)
        (OrderedMap.lowerBound t s.dpStatus) (OrderedMap.lowerBound t s.rdDpStatus) = true) →
      (isWrite lqe.type = true → writeMeets cfg t s (cfg.getRankNum lqe.address)
        (OrderedMap.lowerBound t s.dpStatus) (OrderedMap.lowerBound t s.wrDpStatus) = true) →
      CanAccess cfg t s lqe) (row : ¬ RowReady cfg t s lqe i)
    (h : considerHit cfg t s lqe i c = .ok c') : Weighs cfg t s lqe i c c' := by
  unfold considerHit at h
  dsimp only at h
  split at h
  · rename_i isRead'
    have notWrite : isWrite lqe.type ≠ true := by simp [not_isWrite isRead']
    rw [paths.dp.again, paths.rdDp.again] at h
    cases h
    refine offerHit_weighs rfl
      (fun met => ⟨can (fun _ => met) fun w => absurd w notWrite, .inl isRead'⟩)
      (fun missed ready => ?_) row
    rw [ready.1.read isRead'] at missed
    cases missed
  · rename_i notRead
    split at h
    · rename_i isWrite'
      rw [paths.dp.again, paths.wrDp.again] at h
      cases h
      refine offerHit_weighs rfl
        (fun met => ⟨can (fun r => absurd r notRead) fun _ => met, .inr isWrite'⟩)
        (fun missed ready => ?_) row
      rw [ready.1.write isWrite'] at missed
      cases missed
    · cases h

theorem considerOpen_weighs {c c' : Scan} (paths : Scanned cfg t s c)
    (opened : IsOpen (s.bank cfg lqe)) (past : (s.bank cfg lqe).actionTime ≤ t)
    (tRCD : (s.bank cfg lqe).actionType = .activate →
      (s.bank cfg lqe).actionTime + cfg.ticks cfg.tRCD ≤ t)
    (h : considerOpen cfg t s lqe i c = .ok c') : Weighs cfg t s lqe i c c' := by
  have no_activate : ¬ CanActivate cfg t s lqe := fun can => can.shut opened
  unfold considerOpen at h
  dsimp only at h
  split at h
  · rename_i early
    cases h
    refine .pass (fun issuable => ?_) rfl
    rcases issuable with ready | can | can
    · exact absurd ready.1.tBBL (not_le.mpr early)
    · exact no_activate can
    · exact absurd can.tBBL (not_le.mpr early)
  · rename_i tBBL
    have tBBL := not_lt.mp tBBL
    split at h
    · rename_i miss
      have no_hit : ¬ HitReady cfg t s lqe := fun ready => miss ready.1.hit
      split at h
      · rename_i close
        cases h
        refine offer_weighs (fun tRR => .inr ⟨opened, miss, past, tRCD, tBBL, close.1,
          close.2, tRR⟩)
          fun late issuable => ?_
        rcases issuable with ready | can | can
        · exact no_hit ready
        · exact no_activate can
        · exact late can.tRR
      · rename_i keep
        cases h
        refine .pass (fun issuable => ?_) rfl
        rcases issuable with ready | can | can
        · exact no_hit ready
        · exact no_activate can
        · exact keep ⟨can.policy, can.needed⟩
    · rename_i hit
      have hit := not_not.mp hit
      refine considerHit_weighs paths
        (fun read write => ⟨opened, hit, past, tRCD, tBBL, read, write⟩)
        (fun row => ?_) h
      rcases row with can | can
      · exact no_activate can
      · exact can.miss hit

theorem consider_weighs {c c' : Scan} (paths : Scanned cfg t s c)
    (h : consider cfg t s lqe i c = .ok c') : Weighs cfg t s lqe i c c' := by
  unfold consider at h
  dsimp only at h
  split at h
  · rename_i early
    cases h
    refine .pass (fun issuable => ?_) rfl
    rcases issuable with ready | can | can
    · exact absurd ready.1.past (not_le.mpr early)
    · exact absurd can.past (not_le.mpr early)
    · exact absurd can.past (not_le.mpr early)
  · rename_i past
    have past := not_lt.mp past
    -- a bank whose row is not open is only ever activated
    have shut : ¬ IsOpen (s.bank cfg lqe) →
        (Issuable cfg t s lqe i → CanActivate cfg t s lqe) := fun closed issuable => by
      rcases issuable with ready | can | can
      · exact absurd ready.1.opened closed
      · exact can
      · exact absurd can.opened closed
    split at h
    · rename_i precharge
      have closed : ¬ IsOpen (s.bank cfg lqe) := by simp [IsOpen, precharge]
      split at h
      · rename_i early
        cases h
        refine .pass (fun issuable => ?_) rfl
        exact absurd ((shut closed issuable).precharged precharge) (not_le.mpr early)
      · rename_i tRP
        cases h
        exact offer_weighs (fun tRR => .inl ⟨closed, fun _ => not_lt.mp tRP, past, tRR⟩)
          fun late issuable => late (shut closed issuable).tRR
    · rename_i idle
      have closed : ¬ IsOpen (s.bank cfg lqe) := by simp [IsOpen, idle]
      cases h
      refine offer_weighs (fun tRR => .inl ⟨closed, fun hp => ?_, past, tRR⟩)
        fun late issuable => late (shut closed issuable).tRR
      cases idle.symm.trans hp
    · rename_i activate
      split at h
      · rename_i early
        cases h
        refine .pass (fun issuable => ?_) rfl
        rcases issuable with ready | can | can
        · exact absurd (ready.1.tRCD activate) (not_le.mpr early)
        · exact can.shut (.inl activate)
        · exact absurd (can.tRCD activate) (not_le.mpr early)
      · rename_i tRCD
        exact considerOpen_weighs paths (.inl activate) past (fun _ => not_lt.mp tRCD) h
    · rename_i read
      refine considerOpen_weighs paths (.inr (.inl read)) past (fun activate => ?_) h
      cases read.symm.trans activate
    · rename_i write
      refine considerOpen_weighs paths (.inr (.inr write)) past (fun activate => ?_) h
      cases write.symm.trans activate

def NoneBefore (cfg : McConfig C) (t : Nat) (s : MemoryController C) (n : Nat) : Prop :=
  ∀ j < n, ∀ lqe, s.reqL[j]? = some lqe → ¬ Issuable cfg t s lqe j

def Few (s : MemoryController C) : Prop := ∀ lqe ∈ s.reqL, s.numReqFromATh lqe.thId ≤ s.reqL.length

/-- What is known of the candidate `k` -/
structure Picked (cfg : McConfig C) (t : Nat) (s : MemoryController C) (n k : Nat) (lqe : Lqe C)
    (pageHit : Bool) : Prop where
  get : s.reqL[k]? = some lqe
  scanned : k < n
  window : k < cfg.reqWindowSz
  hit : pageHit = true → HitReady cfg t s lqe
  row : pageHit = false → RowReady cfg t s lqe k ∧
    ∀ j < n, ∀ other, s.reqL[j]? = some other → ¬ HitReady cfg t s other
  behind : s.currBatchLast < k → NoneBefore cfg t s k

structure Chosen (cfg : McConfig C) (t : Nat) (s : MemoryController C) (n : Nat) (c : Scan) :
    Prop where
  idle : c.candidate = none → c.pageHit = false ∧ c.numReqFromTheSameThread = s.reqL.length + 1 ∧
    NoneBefore cfg t s n
  found : ∀ k, c.candidate = some k → ∃ lqe, Picked cfg t s n k lqe c.pageHit

theorem NoneBefore.succ {n : Nat} (h : NoneBefore cfg t s n) (hi : s.reqL[n]? = some lqe)
    (stuck : ¬ Issuable cfg t s lqe n) : NoneBefore cfg t s (n + 1) := fun j hj other ho => by
  rcases Nat.lt_succ_iff_lt_or_eq.mp hj with hj | rfl
  · exact h j hj other ho
  · rw [hi] at ho
    cases ho
    exact stuck

theorem Picked.stay {n k : Nat} {other : Lqe C} {pageHit : Bool}
    (h : Picked cfg t s n k other pageHit) (hi : s.reqL[n]? = some lqe)
    (other_hit : pageHit = false → ¬ HitReady cfg t s lqe) :
    Picked cfg t s (n + 1) k other pageHit where
  get := h.get
  scanned := h.scanned.trans (Nat.lt_succ_self n)
  window := h.window
  hit := h.hit
  row no_hit := by
    obtain ⟨ready, none⟩ := h.row no_hit
    refine ⟨ready, fun j hj x hx => ?_⟩
    rcases Nat.lt_succ_iff_lt_or_eq.mp hj with hj | rfl
    · exact none j hj x hx
    · rw [hi] at hx
      cases hx
      exact other_hit no_hit
  behind := h.behind

theorem Scan.choice_eq {c : Scan} {x : Option Nat × Bool × Int} (h : c.choice = x) :
    c.candidate = x.1 ∧ c.pageHit = x.2.1 ∧ c.numReqFromTheSameThread = x.2.2 := by
  subst h
  exact ⟨rfl, rfl, rfl⟩

theorem Chosen.weighs {n : Nat} {c c' : Scan} (h : Chosen cfg t s n c) (few : s.Few)
    (hi : s.reqL[n]? = some lqe) (window : n < cfg.reqWindowSz)
    (on : c.candidate = none ∨ (n : Int) ≤ s.currBatchLast) (weighs : Weighs cfg t s lqe n c c') :
    Chosen cfg t s (n + 1) c' := by
  have keeps : c'.choice = c.choice → (∀ k, c.candidate = some k → c.pageHit = false →
      ¬ HitReady cfg t s lqe) → (c.candidate = none → ¬ Issuable cfg t s lqe n) →
      Chosen cfg t s (n + 1) c' := fun same other_hit stuck => by
    obtain ⟨candidate, pageHit, num⟩ := Scan.choice_eq same
    refine ⟨fun none => ?_, fun k some => ?_⟩
    · rw [candidate] at none
      obtain ⟨no_hit, most, before⟩ := h.idle none
      exact ⟨pageHit.trans no_hit, num.trans most, before.succ hi (stuck none)⟩
    · rw [candidate] at some
      obtain ⟨other, picked⟩ := h.found k some
      rw [pageHit]
      exact ⟨other, picked.stay hi (other_hit k some)⟩
  have before : c.candidate = none → NoneBefore cfg t s n := fun none => (h.idle none).2.2
  have behind : s.currBatchLast < n → NoneBefore cfg t s n := fun past =>
    before (on.resolve_right (not_le.mpr past))
  cases weighs with
  | pass stuck same =>
    exact keeps same (fun _ _ _ ready => stuck (.inl ready)) fun _ => stuck
  | hit ready choice =>
    unfold chooseHit at choice
    dsimp only at choice
    split at choice
    · obtain ⟨candidate, pageHit, -⟩ := Scan.choice_eq choice
      refine ⟨fun none => ?_, fun k some => ?_⟩
      · rw [candidate] at none
        cases none
      · rw [candidate] at some
        cases some
        rw [pageHit]
        exact ⟨lqe, hi, Nat.lt_succ_self n, window, fun _ => ready, fun h => (nomatch h), behind⟩
    · rename_i kept
      refine keeps choice (fun k _ no_hit => absurd (.inl no_hit) kept) fun none => ?_
      exact absurd (.inl (h.idle none).1) kept
  | row ready choice =>
    unfold chooseRow at choice
    dsimp only at choice
    split at choice
    · rename_i taken
      obtain ⟨candidate, pageHit, -⟩ := Scan.choice_eq choice
      refine ⟨fun none => ?_, fun k some => ?_⟩
      · rw [candidate] at none
        cases none
      · rw [candidate] at some
        cases some
        rw [pageHit]
        refine ⟨lqe, hi, Nat.lt_succ_self n, window, fun h => (nomatch h),
          fun _ => ⟨ready, ?_⟩, behind⟩
        intro j hj other ho
        rcases Nat.lt_succ_iff_lt_or_eq.mp hj with hj | rfl
        · cases hc : c.candidate with
          | none => exact fun hit => before hc j hj other ho (.inl hit)
          | some k =>
            obtain ⟨x, picked⟩ := h.found k hc
            exact (picked.row taken.1).2 j hj other ho
        · rw [hi] at ho
          cases ho
          exact ready.not_hit
    · rename_i kept
      refine keeps choice (fun _ _ _ => ready.not_hit) fun none => ?_
      obtain ⟨no_hit, most, -⟩ := h.idle none
      have num := few lqe (List.mem_of_getElem? hi)
      exact absurd ⟨no_hit, .inl (by omega)⟩ kept

def Ends (cfg : McConfig C) (s : MemoryController C) (c : Scan) (n : Nat) : Prop :=
  s.reqL.length ≤ n ∨ cfg.reqWindowSz ≤ n ∨ c.candidate ≠ none ∧ s.currBatchLast < n

theorem scan_chosen {rest : List (Lqe C)} {c c' : Scan} (few : s.Few) (scanned : Scanned cfg t s c)
    (h : Chosen cfg t s i c) (hrest : s.reqL.drop i = rest) (hs : scan cfg t s rest i c = .ok c') :
    ∃ n, Chosen cfg t s n c' ∧ Ends cfg s c' n := by
  induction rest generalizing i c with
  | nil =>
    cases hs
    exact ⟨i, h, .inl (List.drop_eq_nil_iff.mp hrest)⟩
  | cons lqe rest ih =>
    unfold scan at hs
    split at hs
    · rename_i stop
      cases hs
      refine ⟨i, h, .inr ?_⟩
      rcases stop with ⟨found, -, past⟩ | full
      · exact .inr ⟨Option.isSome_iff_ne_none.mp found, past⟩
      · exact .inl full
    · rename_i on
      rw [not_or, not_le] at on
      have hi : s.reqL[i]? = some lqe := by
        rw [← List.head?_drop, hrest]
        rfl
      cases considered : consider cfg t s lqe i c with
      | error a =>
        rw [considered] at hs
        cases hs
      | ok c₁ =>
        rw [considered] at hs
        have here : c.candidate = none ∨ (i : Int) ≤ s.currBatchLast := by
          by_cases none : c.candidate = none
          · exact .inl none
          · refine .inr (not_lt.mp fun past => on.1 ⟨Option.isSome_iff_ne_none.mpr none, ?_, past⟩)
            rintro rfl
            obtain ⟨k, some⟩ := Option.ne_none_iff_exists'.mp none
            obtain ⟨other, picked⟩ := h.found k some
            exact absurd picked.scanned (Nat.not_lt_zero k)
        refine ih ((consider_scanned scanned hi).of_ok considered)
          (h.weighs few hi on.2 here (consider_weighs scanned considered)) ?_ hs
        rw [← List.drop_drop, hrest]
        rfl

/-- What the scan has found when it ends -/
structure Selects (cfg : McConfig C) (t : Nat) (s : MemoryController C) (c : Scan) : Prop where
  paths : Scanned cfg t s c
  idle : c.candidate = none → NoneBefore cfg t s cfg.reqWindowSz
  found : ∀ k, c.candidate = some k → ∃ lqe, s.reqL[k]? = some lqe ∧ k < cfg.reqWindowSz ∧
    Issuable cfg t s lqe k ∧
    (k ≤ s.currBatchLast → ¬ HitReady cfg t s lqe → ∀ j : Nat, j ≤ s.currBatchLast → ∀ other,
      s.reqL[j]? = some other → ¬ HitReady cfg t s other) ∧
    (s.currBatchLast < k → NoneBefore cfg t s k)

theorem scan_selects {c : Scan} (few : s.Few) (within : s.currBatchLast < cfg.reqWindowSz)
    (hs : scan cfg t s s.reqL 0 s.startScan = .ok c) : Selects cfg t s c := by
  have start : Scanned cfg t s s.startScan :=
    { ready := fun i hi => (by cases hi), dp := .inl rfl, rdDp := .inl rfl, wrDp := .inl rfl }
  have first : Chosen cfg t s 0 s.startScan :=
    ⟨fun _ => ⟨rfl, rfl, fun j hj => absurd hj (Nat.not_lt_zero j)⟩, fun k hk => (by cases hk)⟩
  obtain ⟨n, chosen, ends⟩ := scan_chosen few start first List.drop_zero hs
  have inside : ∀ {j : Nat} {other : Lqe C}, s.reqL[j]? = some other → j < s.reqL.length :=
    fun h => (List.getElem?_eq_some_iff.mp h).1
  refine ⟨(scan_scanned start List.drop_zero).of_ok hs, fun idle j hj other ho => ?_,
    fun k hk => ?_⟩
  · refine (chosen.idle idle).2.2 j ?_ other ho
    have := inside ho
    rcases ends with all | all | ⟨some, -⟩
    · omega
    · omega
    · exact absurd idle some
  · obtain ⟨lqe, picked⟩ := chosen.found k hk
    have issuable : Issuable cfg t s lqe k := by
      cases hit : c.pageHit with
      | true => exact .inl (picked.hit hit)
      | false => exact .inr (picked.row hit).1
    refine ⟨lqe, picked.get, picked.window, issuable, fun _ miss j hj other ho => ?_, picked.behind⟩
    have row : c.pageHit = false := Bool.eq_false_iff.mpr fun hit => miss (picked.hit hit)
    refine (picked.row row).2 j ?_ other ho
    have := inside ho
    rcases ends with all | all | ⟨-, past⟩ <;> omega

def prepare (cfg : McConfig C) (t : Nat) (s : MemoryController C) : MemoryController C :=
  preProcessing cfg t { s with lastProcessTime := t }

inductive Commands (cfg : McConfig C) (t : Nat) (s : MemoryController C) (lqe : Lqe C) (i : Nat) :
    MemoryController C → McEffects C → Prop
  | activate (can : CanActivate cfg t s lqe) :
    Commands cfg t s lqe i (activateRow cfg t s lqe).1 (activateRow cfg t s lqe).2
  | precharge (can : CanClose cfg t s lqe i) :
    Commands cfg t s lqe i (prechargeRow cfg t s lqe).1 (prechargeRow cfg t s lqe).2
  | access {action : McBankAction} {s' : MemoryController C} {effects : McEffects C}
    (ready : HitReady cfg t s lqe) (accesses : Accesses cfg t s lqe i action s' effects)
    (batch : s'.currBatchLast = batchAfter cfg s i)
    (counts : s'.numReqFromATh = if cfg.parBs then
      Function.update s.numReqFromATh lqe.thId (s.numReqFromATh lqe.thId - 1)
        else s.numReqFromATh) :
    Commands cfg t s lqe i s' effects

theorem accessColumn_batch {effects : McEffects C}
    (h : accessColumn cfg t s lqe i = .ok (s', effects)) :
    s'.currBatchLast = batchAfter cfg s i ∧ s'.numReqFromATh = if cfg.parBs then
      Function.update s.numReqFromATh lqe.thId (s.numReqFromATh lqe.thId - 1)
        else s.numReqFromATh := by
  unfold accessColumn at h
  dsimp only at h
  split at h
  · cases h
    exact ⟨rfl, rfl⟩
  · split at h
    · cases h
      exact ⟨rfl, rfl⟩
    · split at h
      · cases h
        exact ⟨rfl, rfl⟩
      · cases h

theorem issue_commands {effects : McEffects C} (hi : s.reqL[i]? = some lqe)
    (issuable : Issuable cfg t s lqe i) (h : issue cfg t s lqe i = .ok (s', effects)) :
    Commands cfg t s lqe i s' effects := by
  have row : ¬ IsOpen (s.bank cfg lqe) → CanActivate cfg t s lqe := fun shut => by
    rcases issuable with ready | can | can
    · exact absurd ready.1.opened shut
    · exact can
    · exact absurd can.opened shut
  have column : IsOpen (s.bank cfg lqe) →
      (if (s.bank cfg lqe).pageNum ≠ cfg.getPageNum lqe.address then
        if cfg.policy = .open then return prechargeRow cfg t s lqe else return (s, {})
      else accessColumn cfg t s lqe i) = .ok (s', effects) → Commands cfg t s lqe i s' effects := by
    intro opened h
    rcases issuable with ready | can | can
    · rw [if_neg (not_not.mpr ready.1.hit)] at h
      obtain ⟨action, accesses⟩ := (accessColumn_accesses hi).of_ok h
      obtain ⟨batch, counts⟩ := accessColumn_batch h
      exact .access ready accesses batch counts
    · exact absurd opened can.shut
    · rw [if_pos can.miss, if_pos can.policy] at h
      cases h
      exact .precharge can
  unfold issue at h
  dsimp only at h
  split at h
  · rename_i precharge
    cases h
    exact .activate (row (by simp [IsOpen, precharge]))
  · rename_i idle
    cases h
    exact .activate (row (by simp [IsOpen, idle]))
  · rename_i activate
    exact column (.inl activate) h
  · rename_i read
    exact column (.inr (.inl read)) h
  · rename_i write
    exact column (.inr (.inr write)) h

theorem Issuable.afterScan {c : Scan} (h : Issuable cfg t s lqe i) (paths : Scanned cfg t s c) :
    Issuable cfg t (s.afterScan c) lqe i := by
  rcases h with ready | can | can
  · rcases Ready.afterScan (.inr (.inr ready.1)) paths with can | can | can
    · exact absurd ready.1.opened can.shut
    · exact absurd ready.1.hit can.miss
    · exact .inl ⟨can, ready.2⟩
  · exact .inr (.inl ⟨can.shut, can.precharged, can.past, can.tRR⟩)
  · exact .inr (.inr ⟨can.opened, can.miss, can.past, can.tRCD, can.tBBL, can.policy,
      can.needed, can.tRR⟩)

/-- `process_event`: a scan, and the command for what it has found -/
inductive Turns (cfg : McConfig C) (t : Nat) (s s' : MemoryController C) (effects : McEffects C) :
    Prop
  | idle {c : Scan} (selects : Selects cfg t (prepare cfg t s) c) (nothing : c.candidate = none)
    (state : s' = (prepare cfg t s).afterScan c) (command : effects.command = none)
  | command {c : Scan} {k : Nat} {lqe : Lqe C} {done : McEffects C}
    (selects : Selects cfg t (prepare cfg t s) c) (found : c.candidate = some k)
    (get : (prepare cfg t s).reqL[k]? = some lqe)
    (commands : Commands cfg t ((prepare cfg t s).afterScan c) lqe k s' done)
    (command : effects.command = done.command)

theorem processEvent_turns {effects : McEffects C} (few : (prepare cfg t s).Few)
    (within : (prepare cfg t s).currBatchLast < cfg.reqWindowSz)
    (h : processEvent cfg t s = .ok (s', effects)) : Turns cfg t s s' effects := by
  unfold processEvent at h
  have same : preProcessing cfg t { s with lastProcessTime := t } = prepare cfg t s := rfl
  rw [same] at h
  dsimp only at h
  cases scanned : scan cfg t (prepare cfg t s) (prepare cfg t s).reqL 0
    (prepare cfg t s).startScan with
  | error a =>
    rw [scanned] at h
    cases h
  | ok c =>
    rw [scanned] at h
    have selects := scan_selects few within scanned
    cases issued : issueFor cfg t ((prepare cfg t s).afterScan c) c.candidate with
    | error a => simp [issued, bind, Except.bind] at h
    | ok r =>
      simp only [issued, bind, Except.bind, pure, Except.pure] at h
      cases h
      cases hc : c.candidate with
      | none =>
        rw [hc] at issued
        cases issued
        exact .idle selects hc rfl rfl
      | some k =>
        obtain ⟨lqe, get, -, issuable, -⟩ := selects.found k hc
        have get' : ((prepare cfg t s).afterScan c).reqL[k]? = some lqe := get
        rw [hc] at issued
        unfold issueFor at issued
        dsimp only at issued
        rw [get'] at issued
        exact .command selects hc get
          (issue_commands get' (issuable.afterScan selects.paths) issued) rfl

end McSim.MemoryController
