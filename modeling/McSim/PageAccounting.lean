import McSim.MemoryControllerConservation
import Mathlib.Algebra.Order.BigOperators.Group.Finset
import Mathlib.Data.List.Count

/-! Page counts of a memory controller.
The requests of an interval are counted apart, and added to those of the whole run when the interval
ends. A page that is new to the run is entered with one request, however many it had. -/

namespace McSim

open OrderedMap MemoryController

variable {C : Type}

/-- A controller with the numbers of requests for each page: since the last `update_acc_dist`, and
before -/
structure PageAccounting (C : Type) where
  mc : MemoryController C := {}
  osPageAccDist : List (Nat × Nat) := []
  osPageAccDistCurr : List (Nat × Nat) := []

inductive AccCall (C : Type)
  | addReqEvent (time : Nat) (lqe : Lqe C)
  | updateAccDist

namespace PageAccounting

variable {cfg : McConfig C} {s s' : PageAccounting C} {p n : Nat} {dist curr : List (Nat × Nat)}

/-- A controller of fixed latency deletes an eviction before it asks for its address. -/
def Deletes (cfg : McConfig C) (lqe : Lqe C) : Prop :=
  (cfg.isFixedLatency = true ∨ cfg.isFixedBwNLatency = true) ∧ isEvict lqe.type = true

instance (cfg : McConfig C) (lqe : Lqe C) : Decidable (Deletes cfg lqe) :=
  inferInstanceAs (Decidable (_ ∧ _))

def countRequest (page : Nat) (curr : List (Nat × Nat)) : List (Nat × Nat) :=
  match find page curr with
  | some n => assign page (n + 1) curr
  | none => insert page 1 curr

def addReqEvent (cfg : McConfig C) (s : PageAccounting C) (time : Nat) (lqe : Lqe C) :
    Except Abort (PageAccounting C × McEffects C) :=
  let (mc, effects) := s.mc.addReqEvent cfg time lqe
  if Deletes cfg lqe then .error .undefined
  else return ({ s with
    mc, osPageAccDistCurr := countRequest (cfg.getPageNum lqe.address) s.osPageAccDistCurr },
      effects)

def merge (dist : List (Nat × Nat)) (e : Nat × Nat) : List (Nat × Nat) :=
  match find e.1 dist with
  | none => insert e.1 1 dist
  | some n => assign e.1 (n + e.2) dist

def updateAccDist (s : PageAccounting C) : PageAccounting C :=
  { s with osPageAccDist := s.osPageAccDistCurr.foldl merge s.osPageAccDist, osPageAccDistCurr := [] }

def call (cfg : McConfig C) (s : PageAccounting C) : AccCall C → Except Abort (PageAccounting C)
  | .addReqEvent time lqe => do
    let (s, _) ← s.addReqEvent cfg time lqe
    return s
  | .updateAccDist => return s.updateAccDist

def calls (cfg : McConfig C) (s : PageAccounting C) (history : List (AccCall C)) :
    Except Abort (PageAccounting C) := history.foldlM (call cfg) s

/-- `os_page_acc_dist[p] + os_page_acc_dist_curr[p]` -/
def counted (s : PageAccounting C) (p : Nat) : Nat :=
  (find p s.osPageAccDist).getD 0 + (find p s.osPageAccDistCurr).getD 0

def total (s : PageAccounting C) : Nat :=
  (s.osPageAccDist.map (·.2)).sum + (s.osPageAccDistCurr.map (·.2)).sum

def requested (cfg : McConfig C) : List (AccCall C) → List Nat
  | [] => []
  | .addReqEvent _ lqe :: history => cfg.getPageNum lqe.address :: requested cfg history
  | .updateAccDist :: history => requested cfg history

/-- How many requests for a page there are at the first update that finds one, given those so far -/
def firstMerge (cfg : McConfig C) (p : Nat) : Nat → List (AccCall C) → Option Nat
  | _, [] => none
  | n, .addReqEvent _ lqe :: history =>
    firstMerge cfg p (if cfg.getPageNum lqe.address = p then n + 1 else n) history
  | n, .updateAccDist :: history => if n = 0 then firstMerge cfg p 0 history else some n

def Kept (cfg : McConfig C) (history : List (AccCall C)) : Prop :=
  ∀ time lqe, AccCall.addReqEvent time lqe ∈ history → ¬ Deletes cfg lqe

theorem find_countRequest (page : Nat) (curr : List (Nat × Nat)) (p : Nat) :
    find p (countRequest page curr) =
      if p = page then some ((find p curr).getD 0 + 1) else find p curr := by
  unfold countRequest
  cases h : find page curr with
  | some n =>
    dsimp only
    rw [find_assign]
    split
    · rename_i same
      rw [same, h]
      rfl
    · rfl
  | none =>
    dsimp only
    rw [insert_eq_assign h, find_assign]
    split
    · rename_i same
      rw [same, h]
      rfl
    · rfl

theorem countRequest_ordered {page : Nat} (h : Ordered curr) :
    Ordered (countRequest page curr) := by
  unfold countRequest
  split
  · exact assign_ordered h
  · exact insert_ordered h

theorem find_merge (e : Nat × Nat) (dist : List (Nat × Nat)) (p : Nat) :
    find p (merge dist e) = if p = e.1 then some ((find p dist).elim 1 (· + e.2))
      else find p dist := by
  unfold merge
  cases h : find e.1 dist with
  | some n =>
    dsimp only
    rw [find_assign]
    split
    · rename_i same
      rw [same, h]
      rfl
    · rfl
  | none =>
    dsimp only
    rw [insert_eq_assign h, find_assign]
    split
    · rename_i same
      rw [same, h]
      rfl
    · rfl

theorem merge_ordered {e : Nat × Nat} (h : Ordered dist) : Ordered (merge dist e) := by
  unfold merge
  split
  · exact insert_ordered h
  · exact assign_ordered h

theorem find_merges (dist : List (Nat × Nat)) (h : Ordered curr) (p : Nat) :
    find p (curr.foldl merge dist) = (find p curr).elim (find p dist)
      fun n => some ((find p dist).elim 1 (· + n)) := by
  induction curr generalizing dist with
  | nil => rfl
  | cons e curr ih =>
    obtain ⟨first, rest⟩ := List.pairwise_cons.mp h
    rw [List.foldl_cons, ih _ rest, find_cons, find_merge]
    by_cases same : e.1 = p
    · have absent : find p curr = none := find_eq_none.mpr fun a ha => by
        rw [← same]
        exact (first a ha).ne'
      rw [if_pos same, if_pos same.symm, absent]
      rfl
    · rw [if_neg same, if_neg (Ne.symm same)]

theorem merges_ordered (h : Ordered dist) (curr : List (Nat × Nat)) :
    Ordered (curr.foldl merge dist) := by
  induction curr generalizing dist with
  | nil => exact h
  | cons e curr ih => exact ih (merge_ordered h)

/-- What the maps of a controller are like: in order, and with a count for every page in them -/
structure Sound (s : PageAccounting C) : Prop where
  ordered : Ordered s.osPageAccDist
  orderedCurr : Ordered s.osPageAccDistCurr
  pos : ∀ p n, find p s.osPageAccDist = some n → 0 < n
  posCurr : ∀ p n, find p s.osPageAccDistCurr = some n → 0 < n

/-- What is lost of a page that the run does not have yet -/
def lost (cfg : McConfig C) (s : PageAccounting C) (p : Nat) (history : List (AccCall C)) : Nat :=
  match find p s.osPageAccDist with
  | some _ => 0
  | none => (firstMerge cfg p ((find p s.osPageAccDistCurr).getD 0) history).getD 1 - 1

theorem call_add {time : Nat} {lqe : Lqe C} (kept : ¬ Deletes cfg lqe) :
    call cfg s (.addReqEvent time lqe) = .ok { s with
      mc := (s.mc.addReqEvent cfg time lqe).1
      osPageAccDistCurr := countRequest (cfg.getPageNum lqe.address) s.osPageAccDistCurr } := by
  unfold call addReqEvent
  dsimp only
  rw [if_neg kept]
  rfl

theorem addReqEvent_numReqs (mc : MemoryController C) (time : Nat) (lqe : Lqe C) :
    (mc.addReqEvent cfg time lqe).1.numReqs = mc.numReqs + 1 := by
  unfold MemoryController.addReqEvent
  dsimp only
  split
  · split
    · rfl
    · rfl
  · split
    · split
      · rfl
      · rfl
    · rfl

theorem Sound.add (h : s.Sound) (page : Nat) (mc : MemoryController C) : Sound { s with
    mc, osPageAccDistCurr := countRequest page s.osPageAccDistCurr } where
  ordered := h.ordered
  orderedCurr := countRequest_ordered h.orderedCurr
  pos := h.pos
  posCurr p n hn := by
    dsimp only at hn
    rw [find_countRequest] at hn
    split at hn
    · cases hn
      exact Nat.succ_pos _
    · exact h.posCurr p n hn

theorem find_updateAccDist (h : s.Sound) (p : Nat) : find p s.updateAccDist.osPageAccDist =
    (find p s.osPageAccDistCurr).elim (find p s.osPageAccDist)
      fun n => some ((find p s.osPageAccDist).elim 1 (· + n)) := find_merges _ h.orderedCurr p

theorem Sound.update (h : s.Sound) : s.updateAccDist.Sound where
  ordered := merges_ordered h.ordered _
  orderedCurr := ordered_nil
  pos p n hn := by
    rw [find_updateAccDist h] at hn
    cases hc : find p s.osPageAccDistCurr with
    | none =>
      rw [hc] at hn
      exact h.pos p n hn
    | some c =>
      rw [hc] at hn
      cases hd : find p s.osPageAccDist with
      | none =>
        rw [hd] at hn
        cases hn
        exact Nat.one_pos
      | some d =>
        rw [hd] at hn
        cases hn
        exact Nat.add_pos_left (h.pos p d hd) c
  posCurr p n hn := by cases hn

theorem counted_add (cfg : McConfig C) (s : PageAccounting C) (p : Nat) (mc : MemoryController C)
    (time : Nat) (lqe : Lqe C) (history : List (AccCall C)) :
    let s' : PageAccounting C := { s with
      mc, osPageAccDistCurr := countRequest (cfg.getPageNum lqe.address) s.osPageAccDistCurr }
    s'.counted p = s.counted p + (if cfg.getPageNum lqe.address = p then 1 else 0) ∧
      s'.lost cfg p history = s.lost cfg p (.addReqEvent time lqe :: history) := by
  intro s'
  have curr : find p s'.osPageAccDistCurr = if p = cfg.getPageNum lqe.address then
      some ((find p s.osPageAccDistCurr).getD 0 + 1) else find p s.osPageAccDistCurr :=
    find_countRequest _ _ p
  have same : s'.osPageAccDist = s.osPageAccDist := rfl
  unfold counted lost
  rw [curr, same, firstMerge]
  by_cases hp : p = cfg.getPageNum lqe.address
  · rw [if_pos hp, if_pos hp.symm, if_pos hp.symm]
    exact ⟨rfl, rfl⟩
  · rw [if_neg hp, if_neg (Ne.symm hp), if_neg (Ne.symm hp)]
    exact ⟨rfl, rfl⟩

theorem counted_update (cfg : McConfig C) (h : s.Sound) (p : Nat) (history : List (AccCall C)) :
    s.updateAccDist.counted p + s.lost cfg p (.updateAccDist :: history) =
      s.counted p + s.updateAccDist.lost cfg p history := by
  have curr : find p s.updateAccDist.osPageAccDistCurr = none := rfl
  unfold counted lost
  rw [curr, find_updateAccDist h, firstMerge]
  cases hc : find p s.osPageAccDistCurr with
  | none => rfl
  | some c =>
    have pos := h.posCurr p c hc
    cases hd : find p s.osPageAccDist with
    | none =>
      rw [Option.getD_some, if_neg pos.ne']
      dsimp
      omega
    | some d => rfl

theorem counted_calls (h : s.Sound) (history : List (AccCall C))
    (hs : calls cfg s history = .ok s') :
    s'.Sound ∧ s'.mc.numReqs = s.mc.numReqs + (requested cfg history).length ∧
      ∀ p, s'.counted p + s.lost cfg p history = s.counted p + (requested cfg history).count p := by
  induction history generalizing s with
  | nil =>
    cases hs
    refine ⟨h, rfl, fun p => ?_⟩
    have none : s'.lost cfg p [] = 0 := by
      unfold lost
      cases find p s'.osPageAccDist <;> rfl
    rw [none]
    rfl
  | cons c history ih =>
    cases c with
    | addReqEvent time lqe =>
      by_cases deletes : Deletes cfg lqe
      · exact absurd hs (by simp [calls, call, addReqEvent, deletes, bind, Except.bind])
      · have rest : calls cfg { s with
            mc := (s.mc.addReqEvent cfg time lqe).1
            osPageAccDistCurr := countRequest (cfg.getPageNum lqe.address) s.osPageAccDistCurr }
            history = .ok s' := by
          rw [calls, List.foldlM_cons, call_add deletes] at hs
          exact hs
        obtain ⟨sound, numReqs, counts⟩ := ih (h.add _ _) rest
        refine ⟨sound, ?_, fun p => ?_⟩
        · rw [numReqs, requested, List.length_cons, addReqEvent_numReqs]
          omega
        · obtain ⟨counted, lost⟩ := counted_add cfg s p
            (s.mc.addReqEvent cfg time lqe).1 time lqe history
          rw [← lost, counts p, counted, requested, List.count_cons]
          simp only [beq_iff_eq]
          omega
    | updateAccDist =>
      obtain ⟨sound, numReqs, counts⟩ := ih h.update hs
      refine ⟨sound, numReqs, fun p => ?_⟩
      have here := counted_update cfg h p history
      have there := counts p
      rw [requested]
      omega

theorem kept_iff (s : PageAccounting C) (history : List (AccCall C)) :
    (∃ s', calls cfg s history = .ok s') ↔ Kept cfg history := by
  induction history generalizing s with
  | nil => exact ⟨fun _ _ _ h => (nomatch h), fun _ => ⟨s, rfl⟩⟩
  | cons c history ih =>
    have tail : Kept cfg (c :: history) ↔
        (∀ time lqe, c = .addReqEvent time lqe → ¬ Deletes cfg lqe) ∧ Kept cfg history := by
      simp only [Kept, List.mem_cons]
      grind
    rw [tail]
    cases c with
    | addReqEvent time lqe =>
      by_cases deletes : Deletes cfg lqe
      · have stuck : ∀ s', calls cfg s (.addReqEvent time lqe :: history) ≠ .ok s' := by
          simp [calls, call, addReqEvent, deletes, bind, Except.bind]
        exact ⟨fun ⟨s', hs⟩ => absurd hs (stuck s'), fun h => absurd deletes (h.1 time lqe rfl)⟩
      · unfold calls
        rw [List.foldlM_cons, call_add deletes]
        refine Iff.trans (ih _) ⟨fun h => ⟨?_, h⟩, And.right⟩
        intro _ _ same
        cases same
        exact deletes
    | updateAccDist =>
      exact Iff.trans (ih _) ⟨fun h => ⟨fun _ _ same => (nomatch same), h⟩, And.right⟩

theorem firstMerge_pos {history : List (AccCall C)} {k : Nat}
    (h : firstMerge cfg p n history = some k) : 0 < k := by
  induction history generalizing n with
  | nil => cases h
  | cons c history ih =>
    cases c with
    | addReqEvent time lqe => exact ih h
    | updateAccDist =>
      unfold firstMerge at h
      split at h
      · exact ih h
      · cases h
        omega

theorem total_eq (h : s.Sound) {pages : List Nat} (counted : ∀ p, s.counted p = pages.count p) :
    s.total = pages.length := by
  have mem : ∀ p, 0 < s.counted p → p ∈ pages.toFinset := fun p hp => by
    rw [counted] at hp
    exact List.mem_toFinset.mpr (List.count_pos_iff.mp hp)
  have dist := sum_find h.ordered pages.toFinset fun e he => mem e.1 <| by
    have found := find_of_mem h.ordered he
    have pos := h.pos _ _ found
    unfold PageAccounting.counted
    rw [found]
    exact Nat.add_pos_left pos _
  have curr := sum_find h.orderedCurr pages.toFinset fun e he => mem e.1 <| by
    have found := find_of_mem h.orderedCurr he
    have pos := h.posCurr _ _ found
    unfold PageAccounting.counted
    rw [found]
    exact Nat.add_pos_right _ pos
  unfold total
  rw [← dist, ← curr, ← Finset.sum_add_distrib]
  calc
    _ = ∑ p ∈ pages.toFinset, pages.count p := Finset.sum_congr rfl fun p _ => counted p
    _ = pages.length := List.sum_toFinset_count_eq_length pages

theorem sound_init : ({} : PageAccounting C).Sound :=
  ⟨ordered_nil, ordered_nil, fun _ _ h => (nomatch h), fun _ _ h => (nomatch h)⟩

/-- The counts of the pages, and their sum, are right if and only if no request is deleted before it
is counted and every page is new to the run with a single request. -/
theorem accounting_iff (cfg : McConfig C) (history : List (AccCall C)) :
    (∃ s, calls cfg {} history = .ok s ∧ (∀ p, s.counted p = (requested cfg history).count p) ∧
        s.total = s.mc.numReqs) ↔
      Kept cfg history ∧ ∀ p n, firstMerge cfg p 0 history = some n → n = 1 := by
  constructor
  · rintro ⟨s, hs, counted, -⟩
    refine ⟨(kept_iff _ history).mp ⟨s, hs⟩, fun p n first => ?_⟩
    obtain ⟨-, -, counts⟩ := counted_calls sound_init history hs
    have right := counted p
    have all := counts p
    have pos := firstMerge_pos first
    have lost : ({} : PageAccounting C).lost cfg p history = n - 1 :=
      congrArg (fun k : Option Nat => k.getD 1 - 1) first
    have start : ({} : PageAccounting C).counted p = 0 := rfl
    omega
  · rintro ⟨kept, single⟩
    obtain ⟨s, hs⟩ := (kept_iff {} history).mpr kept
    obtain ⟨sound, numReqs, counts⟩ := counted_calls sound_init history hs
    have counted : ∀ p, s.counted p = (requested cfg history).count p := fun p => by
      have all := counts p
      have lost : ({} : PageAccounting C).lost cfg p history = 0 := by
        have unfolded : ({} : PageAccounting C).lost cfg p history =
            (firstMerge cfg p 0 history).getD 1 - 1 := rfl
        rw [unfolded]
        cases first : firstMerge cfg p 0 history with
        | none => rfl
        | some n => rw [single p n first]; rfl
      have start : ({} : PageAccounting C).counted p = 0 := rfl
      omega
    refine ⟨s, hs, counted, ?_⟩
    rw [total_eq sound counted, numReqs]
    exact (Nat.zero_add _).symm

def twoRequests : List (AccCall Nat) :=
  [.addReqEvent 0 { path := [], type := .read, address := 0 },
    .addReqEvent 0 { path := [], type := .read, address := 8 }, .updateAccDist]

theorem second_request_lost : ¬ ∃ s, calls McSystem.pairOfBanks {} twoRequests = .ok s ∧
    (∀ p, s.counted p = (requested McSystem.pairOfBanks twoRequests).count p) ∧
    s.total = s.mc.numReqs := by
  rintro ⟨s, hs, counted, -⟩
  cases hs
  exact absurd (counted 0) (by decide)

end PageAccounting
end McSim
