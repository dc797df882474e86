import McSim.MemoryControllerConservation
import McSim.Lib.BitFields
import Mathlib.Data.Nat.Log

/-! Coordinates of an address.
The controller, the rank and the bank are fields of the address, hashed with the bits above; the
page number is what is left when the fields are squeezed out. -/

namespace McSim

open BitFields

variable {C : Type} {cfg : McConfig C} {a b : Nat}

namespace McConfig

def fields (cfg : McConfig C) : List (Nat × Nat) :=
  [(cfg.mcInterleaveBaseBit, Nat.log 2 cfg.numMcs),
    (cfg.bankInterleaveBaseBit, Nat.log 2 cfg.numBanksPerRank),
    (cfg.rankInterleaveBaseBit, Nat.log 2 cfg.numRanksPerMc)]

/-- The fields lie apart from each other, above the offset in a page and below the bits that they
are hashed with. -/
structure Separates (cfg : McConfig C) : Prop where
  mcs : ∃ w, cfg.numMcs = 2 ^ w
  ranks : ∃ w, cfg.numRanksPerMc = 2 ^ w
  banks : ∃ w, cfg.numBanksPerRank = 2 ^ w
  bases : ∀ f ∈ cfg.fields, f.1 ≤ 30
  disjoint : cfg.fields.Pairwise fun f g => Disjoint (field f.1 f.2) (field g.1 g.2)
  within : ∀ f ∈ cfg.fields, field f.1 f.2 ⊆ Finset.Ico cfg.pageSzBaseBit cfg.interleaveXorBaseBit

theorem interleavers_perm (cfg : McConfig C) :
    (cfg.interleavers.map fun e => (e.1, Nat.log 2 e.2)).Perm cfg.fields := by
  have sorted : cfg.interleavers.Perm [(cfg.mcInterleaveBaseBit, cfg.numMcs),
      (cfg.bankInterleaveBaseBit, cfg.numBanksPerRank),
      (cfg.rankInterleaveBaseBit, cfg.numRanksPerMc)] :=
    (Multimap.insert_perm _ _ _).trans (((Multimap.insert_perm _ _ _).trans
      ((Multimap.insert_perm _ _ _).cons _)).cons _)
  exact sorted.map _

theorem interleavers_ordered (cfg : McConfig C) :
    (cfg.interleavers.map fun e => (e.1, Nat.log 2 e.2)).Pairwise fun f g => f.1 ≤ g.1 := by
  have ordered : Multimap.Ordered cfg.interleavers :=
    Multimap.insert_ordered (Multimap.insert_ordered (Multimap.insert_ordered Multimap.ordered_nil))
  exact List.pairwise_map.mpr ordered

theorem Separates.width (h : cfg.Separates) {e : Nat × Nat} (he : e ∈ cfg.interleavers) :
    e.2 = 2 ^ Nat.log 2 e.2 := by
  have power : ∀ n, (∃ w, n = 2 ^ w) → n = 2 ^ Nat.log 2 n := by
    rintro _ ⟨w, rfl⟩
    rw [Nat.log_pow Nat.one_lt_two]
  unfold interleavers at he
  simp only [Multimap.mem_insert, List.not_mem_nil, or_false] at he
  rcases he with rfl | rfl | rfl
  · exact power _ h.mcs
  · exact power _ h.banks
  · exact power _ h.ranks

theorem Separates.getPageNum_eq (h : cfg.Separates) (address : Nat) : cfg.getPageNum address =
    squeezeAll (cfg.interleavers.map fun e => (e.1, Nat.log 2 e.2))
      address >>> cfg.pageSzBaseBit := by
  have widths : ∀ e ∈ cfg.interleavers, e.2 = 2 ^ Nat.log 2 e.2 := fun e he => h.width he
  unfold getPageNum
  refine congrArg (· >>> cfg.pageSzBaseBit) ?_
  revert widths
  generalize cfg.interleavers = l
  intro widths
  induction l with
  | nil => rfl
  | cons e l ih =>
    obtain ⟨base, width⟩ := e
    have rest := ih fun e he => widths e (List.mem_cons_of_mem _ he)
    have here : width = 2 ^ Nat.log 2 width := widths _ List.mem_cons_self
    rw [List.foldr_cons, rest, List.map_cons]
    show _ = squeeze base (Nat.log 2 width) _
    rw [squeeze, ← here, ← Nat.one_shiftLeft]
    rfl

theorem Separates.testBit_of_page (h : cfg.Separates) (page : cfg.getPageNum a = cfg.getPageNum b)
    {i : Nat} (le : cfg.pageSzBaseBit ≤ i) (out : ∀ f ∈ cfg.fields, i ∉ field f.1 f.2) :
    a.testBit i = b.testBit i := by
  have perm := cfg.interleavers_perm
  have symm : ∀ f g : Nat × Nat, Disjoint (field f.1 f.2) (field g.1 g.2) →
      Disjoint (field g.1 g.2) (field f.1 f.2) := fun f g h => h.symm
  rw [h.getPageNum_eq, h.getPageNum_eq] at page
  refine testBit_of_squeezeAll (fun _ => False) cfg.interleavers_ordered
    ((perm.pairwise_iff (symm _ _)).mpr h.disjoint) (fun _ _ _ _ h => h.elim)
    (fun f hf wide => ?_) (fun j le _ => ?_) le not_false fun f hf => out f (perm.mem_iff.mp hf)
  · have first : f.1 ∈ field f.1 f.2 := mem_field.mpr ⟨le_rfl, by omega⟩
    exact (Finset.mem_Ico.mp (h.within f (perm.mem_iff.mp hf) first)).1
  · have shifted := congrArg (fun n => n.testBit (j - cfg.pageSzBaseBit)) page
    simpa only [Nat.testBit_shiftRight, Nat.add_sub_cancel' le] using shifted

end McConfig

/-- The coordinates of an address determine its page. -/
theorem mapping_injective (h : cfg.Separates)
    (mc : whichMc cfg.mcInterleaveBaseBit cfg.interleaveXorBaseBit cfg.numMcs a =
      whichMc cfg.mcInterleaveBaseBit cfg.interleaveXorBaseBit cfg.numMcs b)
    (rank : cfg.getRankNum a = cfg.getRankNum b) (bank : cfg.getBankNum a = cfg.getBankNum b)
    (page : cfg.getPageNum a = cfg.getPageNum b) :
    (∀ i, cfg.pageSzBaseBit ≤ i → a.testBit i = b.testBit i) ∧
      a >>> cfg.pageSzBaseBit = b >>> cfg.pageSzBaseBit := by
  have bits : ∀ i, cfg.pageSzBaseBit ≤ i → a.testBit i = b.testBit i := by
    intro i le
    by_cases out : ∀ f ∈ cfg.fields, i ∉ field f.1 f.2
    · exact h.testBit_of_page page le out
    · obtain ⟨f, hf, hi⟩ : ∃ f ∈ cfg.fields, i ∈ field f.1 f.2 := by
        simpa only [not_forall, not_not, exists_prop] using out
      have range := Finset.mem_Ico.mp (h.within f hf hi)
      have high : ∀ j, cfg.interleaveXorBaseBit ≤ j → a.testBit j = b.testBit j := fun j le =>
        h.testBit_of_page page (by omega) fun g hg hj => by
          have := Finset.mem_Ico.mp (h.within g hg hj)
          omega
      obtain ⟨m, hm⟩ := h.mcs
      obtain ⟨r, hr⟩ := h.ranks
      obtain ⟨k, hk⟩ := h.banks
      unfold whichMc at mc
      unfold McConfig.getRankNum at rank
      unfold McConfig.getBankNum at bank
      rw [hm] at mc
      rw [hr] at rank
      rw [hk] at bank
      simp only [McConfig.fields, hm, hr, hk, Nat.log_pow Nat.one_lt_two, List.mem_cons,
        List.not_mem_nil, or_false] at hf
      rcases hf with rfl | rfl | rfl
      · exact testBit_of_hash mc high hi
      · exact testBit_of_hash bank high hi
      · exact testBit_of_hash rank high hi
  refine ⟨bits, Nat.eq_of_testBit_eq fun i => ?_⟩
  rw [Nat.testBit_shiftRight, Nat.testBit_shiftRight]
  exact bits _ (Nat.le_add_right _ _)

def twoByTwoByFour : McConfig Nat := { McSystem.pairOfBanks with
  mcInterleaveBaseBit := 12
  rankInterleaveBaseBit := 13
  bankInterleaveBaseBit := 14
  pageSzBaseBit := 12
  interleaveXorBaseBit := 18
  numMcs := 2
  numRanksPerMc := 2
  numBanksPerRank := 4 }

theorem mapping_injective_offsets :
    (∀ i, 12 ≤ i → Nat.testBit 0x12345678 i = Nat.testBit 0x123450ff i) ∧
      0x12345678 >>> 12 = 0x123450ff >>> 12 := by
  have log_two : Nat.log 2 2 = 1 := Nat.log_pow Nat.one_lt_two 1
  have log_four : Nat.log 2 4 = 2 := Nat.log_pow Nat.one_lt_two 2
  have fields : twoByTwoByFour.fields = [(12, 1), (14, 2), (13, 1)] := by
    simp only [McConfig.fields, twoByTwoByFour, log_two, log_four]
  have separates : twoByTwoByFour.Separates :=
    { mcs := ⟨1, rfl⟩
      ranks := ⟨1, rfl⟩
      banks := ⟨2, rfl⟩
      bases := by
        rw [fields]
        decide
      disjoint := by
        rw [fields]
        decide
      within := by
        rw [fields]
        decide }
  exact mapping_injective separates (by decide) (by decide) (by decide) (by decide)

end McSim
