import McSim.CacheL2
import Mathlib.Data.Finset.Card

/-! The invariant of the entries of a second-level cache, under whatever the rest of the
system sends. Every handler keeps it, and under it no check of `sharedl1.size()` fails. -/

namespace McSim.CacheL2

open Contract

variable {C : Type}

structure EntryInv (e : L2Entry C) : Prop where
  ownerL1 : e.typeL1L2 = .modified → e.type = .modified ∧ e.sharedL1.card = 1
  soleL1 : e.type = .modified → e.typeL1L2 = .exclusive → e.sharedL1.card ≤ 1
  noL1 : e.type = .modified → e.typeL1L2 = .invalid → e.sharedL1 = ∅
  roundTrip : e.typeL1L2 = .trToM ∨ e.typeL1L2 = .trToS →
    (e.type = .modified ∨ e.type = .trToI) ∧ e.sharedL1 = ∅
  held : e.type = .trToI → e.pending ≠ none
  unused : e.type = .invalid → e.sharedL1 = ∅
  lent : e.type = .trToS → e.pending ≠ none ∧ e.typeL1L2 = .exclusive
  leaving : e.type = .trToI →
    (e.typeL1L2 = .trToI ∨ e.typeL1L2 = .trToM ∨ e.typeL1L2 = .trToS) ∧ e.sharedL1 = ∅
  leavingL1 : e.typeL1L2 = .trToI → e.type = .trToI

theorem entryInv_default (way : Nat) : EntryInv ({ way } : L2Entry C) := by constructor <;> simp

/-- Ends in a result with `post`, or stops, but never at a check of `sharedl1.size()`. -/
def Safe {α : Type} (post : α → Prop) : Except Abort α → Prop := Meets (· ≠ .fatalSize) post

def WayUpdate.Forall (P : L2Entry C → Prop) : WayUpdate C → Prop
  | .keep => True
  | .set e => P e
  | .touch e => P e

section Rules
variable {α β : Type} {post : α → Prop}

@[simp] theorem safe_ok {a : α} : Safe post (.ok a) ↔ post a := Iff.rfl

@[simp] theorem safe_pure {a : α} : Safe post (pure a) ↔ post a := Iff.rfl

@[simp] theorem safe_error {e : Abort} : Safe post (.error e) ↔ e ≠ .fatalSize := Iff.rfl

theorem Safe.bind {mid : β → Prop} {x : Except Abort β} {f : β → Except Abort α} (h : Safe mid x)
    (hf : ∀ b, mid b → Safe post (f b)) : Safe post (x >>= f) :=
  meets_bind.mpr (Meets.mono h hf fun _ he => he)

theorem Safe.read {x : Except Abort β} {f : β → Except Abort α} (h : Safe (fun _ => True) x)
    (hf : ∀ b, Safe post (f b)) : Safe post (x >>= f) :=
  h.bind fun b _ => hf b

theorem safe_top_path (lqe : Lqe C) : Safe (fun c => ∃ path, lqe.path = c :: path) lqe.top :=
  Lqe.meets_top.mpr ⟨fun _ h => (by cases h), fun _ path hp => ⟨path, hp⟩⟩

theorem safe_top (lqe : Lqe C) : Safe (fun _ => True) lqe.top :=
  Meets.mono (safe_top_path lqe) (fun _ _ => trivial) fun _ he => he

theorem safe_pop (lqe : Lqe C) : Safe (fun _ => True) lqe.pop := by
  simp [Safe, Lqe.meets_pop]

end Rules

section Handlers
variable [LinearOrder C] {cfg : L2Config C} {t set : Nat} {e : L2Entry C} {lqe : Lqe C}
    {st : L2Stats}

theorem safe_addEventToLLTop (isData : Bool) :
    Safe (fun _ => True) (addEventToLLTop cfg t lqe isData) :=
  (safe_top lqe).read fun _ => trivial

theorem safe_reqL1Evict (address : Nat) (always : Bool) :
    Safe (fun _ => True) (reqL1Evict cfg t e address lqe always) := by
  unfold reqL1Evict
  split
  · trivial
  · split
    · trivial
    · exact (safe_top lqe).read fun _ => trivial

def Keeps (x : Except Abort (Outcome C)) : Prop := Safe (fun o => o.way.Forall EntryInv) x

theorem repWriteNd_keeps (found : Option (L2Entry C)) :
    Keeps (repWriteNd cfg t set found lqe st) := by
  refine (safe_pop lqe).read fun lqe => ?_
  split
  · exact (safe_top lqe).read fun _ => trivial
  · refine (safe_reqL1Evict _ _).read fun _ => (safe_top lqe).read fun top => ?_
    constructor <;> simp

theorem install_keeps {etype : EventType} (shared : Bool) (calls : List (Call C))
    (htype : etype = .eRd ∨ etype = .sRd ∨ etype = .write) (hw : etype = .write → e.sharedL1 = ∅) :
    Keeps (install cfg t etype shared e lqe calls st) := by
  unfold install
  dsimp only
  split
  · refine (safe_top lqe).read fun top => ?_
    rcases htype with rfl | rfl | rfl
    · cases shared <;> constructor <;> simp [filledType, filledTypeL1]
    · cases shared <;> constructor <;> simp [filledType, filledTypeL1]
    · rw [hw rfl]
      constructor <;> simp [filledType, filledTypeL1]
  · rcases htype with rfl | rfl | rfl
    · constructor <;> simp [filledType]
    · constructor <;> simp [filledType]
    · rw [hw rfl]
      constructor <;> simp [filledType]

omit [LinearOrder C] in
theorem safe_nackRequester : Safe (fun _ => True) (nackRequester cfg t lqe) := by
  unfold nackRequester
  split
  · exact (safe_top lqe).read fun _ => trivial
  · trivial

theorem fillVictim_keeps {etype : EventType} {victim : L2Entry C} (h : EntryInv victim)
    (htype : etype = .eRd ∨ etype = .sRd ∨ etype = .write) :
    Keeps (fillVictim cfg t set etype victim lqe st) := by
  have bypass : Keeps (fillBypass cfg t lqe st) := safe_nackRequester.read fun _ => trivial
  unfold fillVictim
  split
  · exact bypass
  · split
    · rename_i hi
      exact install_keeps false [] htype fun _ => h.unused hi
    · exact (safe_reqL1Evict _ _).read fun _ => install_keeps false _ htype fun _ => rfl

theorem fillFound_keeps {etype : EventType} (htype : etype = .eRd ∨ etype = .sRd ∨ etype = .write) :
    Keeps (fillFound cfg t set etype e lqe st) := by
  unfold fillFound
  split
  · exact (safe_reqL1Evict _ _).read fun _ => install_keeps false _ htype fun _ => rfl
  · split
    · split
      · exact (safe_top lqe).read fun _ => trivial
      · trivial
    · exact install_keeps _ _ htype fun hw => absurd hw ‹_›

theorem repFill_keeps {found : Option (L2Entry C)} {victim : L2Entry C} (hv : EntryInv victim)
    (htype : lqe.type = .eRd ∨ lqe.type = .sRd ∨ lqe.type = .write) :
    Keeps (repFill cfg t set found victim lqe st) := by
  refine (safe_pop lqe).read fun lqe => ?_
  split
  · exact fillVictim_keeps hv htype
  · exact fillFound_keeps htype

theorem safe_turnAway : Safe (fun _ => True) (turnAway cfg t set e lqe) := by
  unfold turnAway
  dsimp only
  split
  · trivial
  · exact (safe_top lqe).read fun _ => trivial
  · exact (safe_top lqe).read fun _ => (safe_reqL1Evict _ _).read fun _ => trivial

theorem safe_returnPending : Safe (fun _ => True) (returnPending cfg t e) := by
  unfold returnPending
  split
  · trivial
  · exact (safe_addEventToLLTop _).read fun _ => trivial

theorem repMToX_keeps {found : Option (L2Entry C)} (h : ∀ e ∈ found, EntryInv e) :
    Keeps (repMToX cfg t set found lqe st) := by
  refine (safe_pop lqe).read fun lqe => ?_
  cases found with
  | none => exact fun h => by cases h
  | some e =>
    have inv := h e rfl
    dsimp only
    split
    · rename_i hi
      have gone := (inv.leaving hi.1).2
      refine safe_turnAway.read fun _ => safe_returnPending.read fun _ => ?_
      constructor <;> simp [clearTurnedAway]
      split <;> first | exact gone | rfl
    · split
      · rename_i _ htr
        obtain ⟨htype, hnone⟩ := inv.roundTrip htr
        refine (safe_top lqe).read fun top => safe_returnPending.read fun _ => ?_
        cases hp : e.pending with
        | none =>
          have htype : e.type = .modified := by
            rcases htype with htype | htype
            · exact htype
            · exact absurd hp (inv.held htype)
          rcases htr with htr | htr <;> constructor <;> simp [returnedTypeL1, hp, htr, htype, hnone]
        | some pending =>
          rcases htr with htr | htr <;> constructor <;> simp [returnedTypeL1, hp, htr]
      · exact fun h => by cases h

theorem repEvict_keeps {found : Option (L2Entry C)} (h : ∀ e ∈ found, EntryInv e) :
    Keeps (repEvict cfg t found lqe st) := by
  unfold repEvict
  cases found with
  | none =>
    dsimp only
    split
    · exact (safe_addEventToLLTop _).read fun _ => trivial
    · trivial
  | some e =>
    have inv := h e rfl
    dsimp only
    split
    · rename_i hs
      split
      · exact fun h => by cases h
      · refine (safe_addEventToLLTop _).read fun _ => (safe_top lqe).read fun top => ?_
        constructor <;> simp [(inv.lent hs).2]
    · refine (safe_top lqe).read fun top => ?_
      have card := Finset.card_erase_le (s := e.sharedL1) (a := top)
      by_cases gone : e.sharedL1.erase top = ∅ ∧ e.typeL1L2 ≠ .trToS ∧ e.typeL1L2 ≠ .trToM ∧
          e.typeL1L2 ≠ .trToI
      · have hi : e.type ≠ .trToI := fun hi => by
          rcases (inv.leaving hi).1 with h | h | h
          · exact gone.2.2.2 h
          · exact gone.2.2.1 h
          · exact gone.2.1 h
        constructor <;> simp [gone, hi, ‹¬ e.type = .trToS›]
      · simp only [safe_pure, WayUpdate.Forall, if_neg gone]
        refine ⟨fun hm => ?_, fun hm he => card.trans (inv.soleL1 hm he), fun hm he => ?_,
          fun ht => ?_, inv.held, fun hi => ?_, fun hs => absurd hs ‹_›, fun hi => ?_,
          inv.leavingL1⟩
        · have hm : e.typeL1L2 = .modified := hm
          obtain ⟨htype, hcard⟩ := inv.ownerL1 hm
          refine ⟨htype, Nat.le_antisymm (card.trans hcard.le) (Finset.card_pos.mpr ?_)⟩
          by_contra hne
          exact gone ⟨Finset.not_nonempty_iff_eq_empty.mp hne, by simp [hm]⟩
        · simp [inv.noL1 hm he]
        · exact ⟨(inv.roundTrip ht).1, by simp [(inv.roundTrip ht).2]⟩
        · simp [inv.unused hi]
        · exact ⟨(inv.leaving hi).1, by simp [(inv.leaving hi).2]⟩

theorem first_of_card {s : Finset C} (h : s.card = 1) : ∃ c, s = {c} ∧ first s = some c := by
  obtain ⟨c, rfl⟩ := Finset.card_eq_one.mp h
  exact ⟨c, rfl, first_singleton c⟩

theorem repDirRd_keeps {found : Option (L2Entry C)} (h : ∀ e ∈ found, EntryInv e) :
    Keeps (repDirRd cfg t set found lqe st) := by
  unfold repDirRd
  cases found with
  | none => trivial
  | some e =>
    have inv := h e rfl
    dsimp only
    have shared : e.type = .modified → e.typeL1L2 ≠ .modified → e.typeL1L2 ≠ .trToM →
        e.typeL1L2 ≠ .trToS → EntryInv { e with type := .shared, lastAccessTime := t } := by
      intro htype hm ht hs
      have hi : e.typeL1L2 ≠ .trToI := fun hi => by
        have := inv.leavingL1 hi
        rw [htype] at this
        cases this
      constructor <;> simp [hm, ht, hs, hi]
    split
    · exact fun h => by cases h
    · rename_i htype
      have htype : e.type = .modified := not_not.mp htype
      split
      · rename_i hl
        exact (safe_addEventToLLTop _).read fun _ => shared htype (by simp [hl]) (by simp [hl])
          (by simp [hl])
      · rename_i hl
        exact (safe_addEventToLLTop _).read fun _ => shared htype (by simp [hl]) (by simp [hl])
          (by simp [hl])
      · rename_i hl
        exact (safe_addEventToLLTop _).read fun _ => shared htype (by simp [hl]) (by simp [hl])
          (by simp [hl])
      · rename_i hl
        obtain ⟨-, hcard⟩ := inv.ownerL1 hl
        obtain ⟨owner, -, hfirst⟩ := first_of_card hcard
        rw [if_neg (not_not.mpr hcard), hfirst]
        constructor <;> simp
      · rename_i hl
        split
        · exact fun h => by cases h
        · obtain ⟨-, hnone⟩ := inv.roundTrip (.inl hl)
          constructor <;> simp [hl, htype, hnone]
      · rename_i hl
        split
        · exact fun h => by cases h
        · obtain ⟨-, hnone⟩ := inv.roundTrip (.inr hl)
          constructor <;> simp [hl, htype, hnone]
      · exact fun h => by cases h

omit [LinearOrder C] in
theorem repNack_keeps : Keeps (repNack cfg t lqe st) := by
  refine (safe_pop lqe).read fun lqe => ?_
  split
  · exact (safe_top lqe).read fun _ => trivial
  · trivial

theorem repToS_keeps {found : Option (L2Entry C)} (h : ∀ e ∈ found, EntryInv e) :
    Keeps (repToS cfg t found lqe st) := by
  unfold repToS
  cases found with
  | none => trivial
  | some e =>
    have inv := h e rfl
    dsimp only
    split
    · exact fun h => by cases h
    · rename_i htype
      refine (safe_addEventToLLTop _).read fun _ => ?_
      have clean : e.type ≠ .modified ∧ e.type ≠ .trToI := by
        constructor <;> intro heq <;> simp [heq] at htype
      have hm : e.typeL1L2 ≠ .modified := fun h => clean.1 (inv.ownerL1 h).1
      have hi : e.typeL1L2 ≠ .trToI := fun h => clean.2 (inv.leavingL1 h)
      have ht : ¬ (e.typeL1L2 = .trToM ∨ e.typeL1L2 = .trToS) := fun h => by
        rcases (inv.roundTrip h).1 with h | h
        · exact clean.1 h
        · exact clean.2 h
      constructor <;> simp_all

theorem repInvalidate_keeps {found : Option (L2Entry C)} (h : ∀ e ∈ found, EntryInv e) :
    Keeps (repInvalidate cfg t set found lqe st) := by
  unfold repInvalidate
  cases found with
  | none => exact (safe_addEventToLLTop _).read fun _ => trivial
  | some e =>
    have inv := h e rfl
    dsimp only
    split
    · exact fun h => by cases h
    · split
      · rename_i hm
        obtain ⟨-, hcard⟩ := inv.ownerL1 hm.2
        obtain ⟨owner, -, hfirst⟩ := first_of_card hcard
        rw [if_neg (not_not.mpr hcard), hfirst]
        constructor <;> simp
      · split
        · rename_i ht
          split
          · exact fun h => by cases h
          · obtain ⟨-, hnone⟩ := inv.roundTrip ht.2
            rcases ht.2 with ht | ht <;> constructor <;> simp [ht, hnone]
        · refine (safe_reqL1Evict _ _).read fun _ => (safe_addEventToLLTop _).read fun _ => ?_
          constructor <;> simp

theorem reply_keeps {found : Option (L2Entry C)} {victim : L2Entry C} (h : ∀ e ∈ found, EntryInv e)
    (hv : EntryInv victim) : Keeps (reply cfg t set found victim lqe st) := by
  unfold reply
  split
  · exact repWriteNd_keeps found
  · exact repFill_keeps hv (.inl ‹_›)
  · exact repFill_keeps hv (.inr (.inl ‹_›))
  · exact repFill_keeps hv (.inr (.inr ‹_›))
  · exact repMToX_keeps h
  · exact repMToX_keeps h
  · exact repEvict_keeps h
  · exact repEvict_keeps h
  · exact repDirRd_keeps h
  · exact repNack_keeps
  · exact repToS_keeps h
  · exact repToS_keeps h
  · exact repInvalidate_keeps h
  · exact repInvalidate_keeps h
  · trivial
  · exact fun h => by cases h

def KeepsReq (x : Except Abort (ReqOutcome C)) : Prop := Safe (fun r => r.way.Forall EntryInv) x

omit [LinearOrder C] in
theorem entryInv_readable (ht : stable e.type = true)
    (hl : e.typeL1L2 = .exclusive ∨ e.typeL1L2 = .shared)
    (hs : e.type = .modified → e.typeL1L2 = .exclusive → e.sharedL1.card ≤ 1) : EntryInv e := by
  have transient : e.type ≠ .invalid ∧ e.type ≠ .trToS ∧ e.type ≠ .trToI := by
    refine ⟨?_, ?_, ?_⟩ <;> intro h <;> simp [h, stable] at ht
  rcases hl with hl | hl <;> constructor <;> simp_all

omit [LinearOrder C] in
theorem entryInv_used (inv : EntryInv e) : EntryInv { e with lastAccessTime := t } :=
  ⟨inv.ownerL1, inv.soleL1, inv.noL1, inv.roundTrip, inv.held, inv.unused, inv.lent, inv.leaving,
    inv.leavingL1⟩

theorem readFound_keeps (inv : EntryInv e) : KeepsReq (readFound cfg t e lqe) := by
  unfold readFound
  dsimp only
  split
  · rename_i hl
    refine (safe_top lqe).read fun top => entryInv_readable hl.2 (.inl rfl) fun hm _ => ?_
    simp [inv.noL1 hm hl.1]
  · split
    · rename_i hl
      refine (safe_top lqe).read fun top => ?_
      by_cases hc : (insert top e.sharedL1).card > 1
      · exact entryInv_readable hl.2 (.inr (if_pos hc)) fun _ he => by simp [hc] at he
      · exact entryInv_readable hl.2 (.inl (if_neg hc)) fun _ _ => by simpa using hc
    · split
      · rename_i hl
        refine (safe_top lqe).read fun top => entryInv_readable hl.2 (.inr hl.1) fun _ he => ?_
        simp [hl.1] at he
      · split
        · rename_i hm
          obtain ⟨-, hcard⟩ := inv.ownerL1 hm.1
          obtain ⟨owner, -, hfirst⟩ := first_of_card hcard
          rw [if_neg (by omega), hfirst]
          refine (safe_top lqe).read fun top => ?_
          split
          · constructor <;> simp [hm]
          · exact entryInv_used inv
        · split
          · exact entryInv_used inv
          · exact fun h => by cases h

theorem safe_soleRequester : Safe (fun _ => True) (soleRequester e lqe) := by
  unfold soleRequester
  split
  · exact (safe_top lqe).read fun _ => trivial
  · trivial

theorem writeUpgrade_keeps (inv : EntryInv e) (htype : e.type = .exclusive ∨ e.type = .shared) :
    KeepsReq (writeUpgrade cfg t set e lqe) := by
  have hm : e.typeL1L2 ≠ .modified := fun h => by simp [(inv.ownerL1 h).1] at htype
  have hi : e.typeL1L2 ≠ .trToI := fun h => by simp [inv.leavingL1 h] at htype
  have ht : e.typeL1L2 ≠ .trToM ∧ e.typeL1L2 ≠ .trToS := by
    constructor <;> intro h
    · rcases (inv.roundTrip (.inl h)).1 with h | h <;> simp [h] at htype
    · rcases (inv.roundTrip (.inr h)).1 with h | h <;> simp [h] at htype
  refine safe_soleRequester.read fun sole => ?_
  split
  · constructor <;> simp [hm, hi, ht]
  · refine (safe_reqL1Evict _ _).read fun _ => ?_
    by_cases hs : e.sharedL1 = ∅
    · simpa only [safe_pure, WayUpdate.Forall, if_pos hs] using inv
    · simp only [safe_pure, WayUpdate.Forall, if_neg hs]
      constructor <;> simp [hm, hi, ht]

omit cfg set st in
theorem own_keeps (calls : List (Call C)) (htype : e.type = .modified)
    (hs : ∀ top path, lqe.path = top :: path → (insert top e.sharedL1).card = 1) :
    KeepsReq (own t e lqe calls) := by
  refine (safe_top_path lqe).bind fun top ⟨path, hp⟩ => ?_
  constructor <;> simp [htype, hs top path hp]

theorem writeFound_keeps (inv : EntryInv e) : KeepsReq (writeFound cfg t set e lqe) := by
  unfold writeFound
  dsimp only
  split
  · rename_i h
    exact own_keeps [] h.1 fun _ _ _ => by simp [inv.noL1 h.1 h.2]
  · split
    · rename_i h
      obtain ⟨-, hcard⟩ := inv.ownerL1 h.2
      obtain ⟨owner, hs, hfirst⟩ := first_of_card hcard
      rw [if_neg (not_not.mpr hcard), hfirst]
      refine (safe_top_path lqe).bind fun top ⟨path, hp⟩ => ?_
      split
      · constructor <;> simp [h]
      · rename_i heq
        refine own_keeps [] h.1 fun top' path' hp' => ?_
        have same : owner = top' := by
          rw [hp] at hp'
          cases hp'
          exact not_not.mp heq
        simp [hs, same]
    · split
      · rename_i h
        have hcard := inv.soleL1 h.1 h.2
        rw [if_neg (by omega)]
        split
        · rename_i hfirst
          exact own_keeps [] h.1 fun _ _ _ => by simp [first_eq_none.mp hfirst]
        · rename_i other hfirst
          refine (safe_top_path lqe).bind fun top ⟨path, hp⟩ => ?_
          split
          · exact own_keeps _ h.1 fun _ _ _ => by simp
          · rename_i heq
            refine own_keeps [] h.1 fun top' path' hp' => ?_
            have same : other = top' := by
              rw [hp] at hp'
              cases hp'
              exact not_not.mp heq
            have mem := first_mem hfirst
            rw [same] at mem
            have pos := Finset.card_pos.mpr ⟨top', mem⟩
            rw [Finset.insert_eq_of_mem mem]
            omega
      · split
        · rename_i h
          exact (safe_reqL1Evict _ _).read fun _ => own_keeps _ h.1 fun _ _ _ => by simp
        · split
          · exact entryInv_used inv
          · exact fun h => by cases h

theorem readRequest_keeps {found : Option (L2Entry C)} (h : ∀ e ∈ found, EntryInv e) :
    KeepsReq (readRequest cfg t found lqe) := by
  unfold readRequest
  cases found with
  | none => trivial
  | some e =>
    dsimp only
    split
    · trivial
    · exact readFound_keeps (h e rfl)

theorem writeRequest_keeps {found : Option (L2Entry C)} (h : ∀ e ∈ found, EntryInv e) :
    KeepsReq (writeRequest cfg t set found lqe) := by
  unfold writeRequest
  cases found with
  | none => trivial
  | some e =>
    dsimp only
    split
    · exact writeUpgrade_keeps (h e rfl) ‹_›
    · exact writeFound_keeps (h e rfl)

omit [LinearOrder C] in
theorem dispose_keeps {r : ReqOutcome C} (etype : EventType) (h : r.way.Forall EntryInv) :
    Keeps (dispose cfg t etype r st) := by
  unfold dispose
  split
  · exact h
  · split
    · exact h
    · split
      · exact (safe_top r.lqe).read fun _ => h
      · exact h

theorem request_keeps {found : Option (L2Entry C)} (h : ∀ e ∈ found, EntryInv e) :
    Keeps (request cfg t set found lqe st) := by
  unfold request
  split
  · exact (readRequest_keeps h).bind fun r hr => dispose_keeps _ hr
  · exact (writeRequest_keeps h).bind fun r hr => dispose_keeps _ hr

end Handlers

def Inv (s : CacheL2 C) : Prop := ∀ set, ∀ e ∈ s.tags set, EntryInv e

theorem updateWay_forall {P : L2Entry C → Prop} {ways : List (L2Entry C)} {u : WayUpdate C}
    (idx : Nat) (h : ∀ e ∈ ways, P e) (hu : u.Forall P) : ∀ e ∈ updateWay ways idx u, P e := by
  intro e he
  cases u with
  | keep => exact h e he
  | set e' =>
    rcases List.mem_or_eq_of_mem_set he with he | rfl
    · exact h e he
    · exact hu
  | touch e' =>
    rcases List.mem_append.mp he with he | he
    · exact h e (List.mem_of_mem_eraseIdx he)
    · rw [List.mem_singleton.mp he]
      exact hu

theorem apply_inv {s : CacheL2 C} (h : Inv s) (set idx : Nat) {o : Outcome C}
    (ho : o.way.Forall EntryInv) : Inv (s.apply set idx o).1 := by
  intro set' e he
  by_cases hset : set' = set
  · subst hset
    simp only [apply, Function.update_self] at he
    exact updateWay_forall idx (h set') ho e he
  · simp only [apply, Function.update_of_ne hset] at he
    exact h set' e he

section Runs
variable [LinearOrder C] {cfg : L2Config C} {t : Nat} {s : CacheL2 C}

omit [LinearOrder C] in
theorem found_eq_some {p : L2Entry C → Bool} {ways : List (L2Entry C)} {e : L2Entry C}
    (h : found p ways = some e) :
    ∃ idx, ways.findIdx? p = some idx ∧ ways[idx]? = some e ∧ p e = true := by
  obtain ⟨idx, hidx, he⟩ := Option.bind_eq_some_iff.mp h
  obtain ⟨hlt, hp, -⟩ := List.findIdx?_eq_some_iff_getElem.mp hidx
  rw [List.getElem?_eq_getElem hlt] at he
  cases he
  exact ⟨idx, hidx, List.getElem?_eq_getElem hlt, hp⟩

omit [LinearOrder C] in
theorem target_way {p : L2Entry C → Bool} {ways : List (L2Entry C)} {victim : L2Entry C}
    (hv : ways.head? = some victim) :
    ways[(ways.findIdx? p).getD 0]? = some ((found p ways).getD victim) := by
  cases hf : ways.findIdx? p with
  | none =>
    rw [found, hf]
    simpa [List.head?_eq_getElem?] using hv
  | some idx =>
    obtain ⟨hlt, -, -⟩ := List.findIdx?_eq_some_iff_getElem.mp hf
    simp [found, hf, List.getElem?_eq_getElem hlt]

theorem processReply_inv (h : Inv s) (lqe : Lqe C) :
    Safe (fun r => Inv r.1) (processReply cfg t s lqe) := by
  unfold processReply
  dsimp only
  split
  · exact fun h => by cases h
  · rename_i victim hv
    refine (reply_keeps (fun e he => ?_) (h _ victim (List.mem_of_mem_head? hv))).bind fun o ho =>
      apply_inv h _ _ ho
    obtain ⟨idx, -, hi, -⟩ := found_eq_some he
    exact h _ e (List.mem_of_getElem? hi)

theorem processRequest_inv (h : Inv s) (lqe : Lqe C) :
    Safe (fun r => Inv r.1) (processRequest cfg t s lqe) := by
  refine (request_keeps fun e he => ?_).bind fun o ho => apply_inv h _ _ ho
  obtain ⟨idx, -, hi, -⟩ := found_eq_some he
  exact h _ e (List.mem_of_getElem? hi)

theorem processRequests_inv (requests : List (Lqe C)) (h : Inv s) :
    Safe (fun r => Inv r.1) (processRequests cfg t s requests) := by
  induction requests generalizing s with
  | nil => exact h
  | cons lqe rest ih =>
    exact (processRequest_inv h lqe).bind fun r hr => (ih hr).bind fun r' hr' => hr'

theorem serve_inv (h : Inv s) : Safe (fun r => Inv r.1) (serve cfg t s) := by
  unfold serve
  split
  · refine processReply_inv ?_ _
    exact h
  · split
    · exact fun h => by cases h
    · refine processRequests_inv _ ?_
      exact h

theorem processEvent_inv (h : Inv s) : Safe (fun r => Inv r.1) (processEvent cfg t s) :=
  (serve_inv (show Inv (s.takeEvents cfg t) from h)).bind fun _ hr => hr

/-- Runs of a cache: any events are added at any time, and `process_event` is called at any
tick. A run that aborts stops there. -/
inductive Run (cfg : L2Config C) (numWays : Nat) : CacheL2 C → Prop
  | init : Run cfg numWays (init numWays)
  | addReq {s : CacheL2 C} (t : Nat) (lqe : Lqe C) : Run cfg numWays s →
      Run cfg numWays (s.addReqEvent cfg t lqe)
  | addRep {s : CacheL2 C} (t : Nat) (lqe : Lqe C) : Run cfg numWays s →
      Run cfg numWays (s.addRepEvent cfg t lqe)
  | process {s s' : CacheL2 C} {effects : Effects C} {wakeup : Option Nat} (t : Nat) :
      Run cfg numWays s →
      s.processEvent cfg t = .ok (s', effects, wakeup) → Run cfg numWays s'

theorem run_inv {numWays : Nat} (h : Run cfg numWays s) : Inv s := by
  induction h with
  | init =>
    intro set e he
    obtain ⟨way, -, rfl⟩ := List.mem_map.mp he
    exact entryInv_default way
  | addReq _ _ _ ih => exact ih
  | addRep _ _ _ ih => exact ih
  | process _ _ hs ih => exact (processEvent_inv ih).of_ok hs

/-- In every run every entry keeps the invariant, and no check of `sharedl1.size()` fails. -/
theorem run_entries {numWays : Nat} (h : Run cfg numWays s) :
    (∀ set, ∀ e ∈ s.tags set, EntryInv e) ∧ ∀ t, s.processEvent cfg t ≠ .error .fatalSize :=
  ⟨run_inv h, fun _ hs => (processEvent_inv (run_inv h)).of_error hs rfl⟩

end Runs

def oneLine : L2Config Nat where
  self := 1
  directory := 2
  directoryNum := 0
  crossbar := 3
  whichMc := fun _ => 0
  setLsb := 6
  numSets := 1
  numSets_pos := Nat.one_pos
  numBanks := 1
  numBanks_pos := Nat.one_pos
  l2ToL1T := 45
  l2ToDirT := 90
  l2ToXbarT := 90
  numFlitsPerPacket := 1
  alwaysHit := false
  processInterval := 20

def filled : CacheL2 Nat :=
  { init 1 with
    tags := Function.update (init 1).tags 0 [{
      tag := 1, type := .modified, typeL1L2 := .modified, sharedL1 := {10}
      firstAccessTime := 20, lastAccessTime := 20 }] }

theorem run_entries_filled : (∀ set, ∀ e ∈ filled.tags set, EntryInv e) ∧
    ∀ t, filled.processEvent oneLine t ≠ .error .fatalSize :=
  run_entries (.process 20 (.addRep 20 { path := [1, 10, 11], type := .write, address := 64 }
    (.init : Run oneLine 1 _)) rfl)

end McSim.CacheL2
