import Mathlib.Data.Nat.Bitwise
import Mathlib.Order.Interval.Finset.Nat
import Mathlib.Data.Finset.Disjoint

/-! Fields of a number's bits.
A field is squeezed out of a number by moving the bits above it down. Where several fields are
squeezed out, the highest first, what is left determines every bit outside of them. -/

namespace BitFields

variable {base width lo i x y : Nat} {fields : List (Nat × Nat)}

/-- The places of `width` bits from `base` on -/
def field (base width : Nat) : Finset Nat := Finset.Ico base (base + width)

@[simp] theorem mem_field : i ∈ field base width ↔ base ≤ i ∧ i < base + width := Finset.mem_Ico

def squeeze (base width x : Nat) : Nat := ((x >>> base) / 2 ^ width) <<< base + x % 2 ^ base

/-- Fields in ascending order; the last one goes first. -/
def squeezeAll (fields : List (Nat × Nat)) (x : Nat) : Nat :=
  fields.foldr (fun f x => squeeze f.1 f.2 x) x

theorem testBit_squeeze (base width x i : Nat) :
    (squeeze base width x).testBit i = x.testBit (if i < base then i else i + width) := by
  have below : x % 2 ^ base < 2 ^ base := Nat.mod_lt x (Nat.two_pow_pos base)
  unfold squeeze
  rw [Nat.shiftLeft_eq, Nat.mul_comm, Nat.testBit_two_pow_mul_add _ below]
  split
  · rename_i h
    rw [Nat.testBit_mod_two_pow]
    simp [h]
  · rename_i h
    rw [Nat.testBit_div_two_pow, Nat.testBit_shiftRight]
    exact congrArg x.testBit (by omega)

theorem squeeze_zero (base x : Nat) : squeeze base 0 x = x := by
  refine Nat.eq_of_testBit_eq fun i => ?_
  rw [testBit_squeeze, Nat.add_zero, ite_self]

theorem testBit_of_squeeze {gone : Nat → Prop} (below : width ≠ 0 → ∀ i, gone i → i < base)
    (above : width ≠ 0 → lo ≤ base)
    (h : ∀ i, lo ≤ i → ¬ gone i →
      (squeeze base width x).testBit i = (squeeze base width y).testBit i)
    (le : lo ≤ i) (off : ¬ gone i) (out : i ∉ field base width) : x.testBit i = y.testBit i := by
  by_cases none : width = 0
  · subst none
    simpa only [squeeze_zero] using h i le off
  · rcases lt_or_ge i base with lt | ge
    · have same := h i le off
      rwa [testBit_squeeze, testBit_squeeze, if_pos lt] at same
    · have past : base + width ≤ i := not_lt.mp fun lt => out (mem_field.mpr ⟨ge, lt⟩)
      have kept : ¬ gone (i - width) := fun hg => by
        have := below none _ hg
        omega
      have same := h (i - width) (by have := above none; omega) kept
      rw [testBit_squeeze, testBit_squeeze, if_neg (by omega)] at same
      rwa [Nat.sub_add_cancel (by omega)] at same

theorem testBit_of_squeezeAll (gone : Nat → Prop) (ordered : fields.Pairwise fun a b => a.1 ≤ b.1)
    (disjoint : fields.Pairwise fun a b => Disjoint (field a.1 a.2) (field b.1 b.2))
    (below : ∀ f ∈ fields, f.2 ≠ 0 → ∀ i, gone i → i < f.1)
    (above : ∀ f ∈ fields, f.2 ≠ 0 → lo ≤ f.1)
    (h : ∀ i, lo ≤ i → ¬ gone i → (squeezeAll fields x).testBit i = (squeezeAll fields y).testBit i)
    (le : lo ≤ i) (off : ¬ gone i) (out : ∀ f ∈ fields, i ∉ field f.1 f.2) :
    x.testBit i = y.testBit i := by
  induction fields generalizing gone with
  | nil => exact h i le off
  | cons f fields ih =>
    obtain ⟨first, ordered⟩ := List.pairwise_cons.mp ordered
    obtain ⟨apart, disjoint⟩ := List.pairwise_cons.mp disjoint
    have here : ∀ g ∈ fields, g.2 ≠ 0 → ∀ j, j ∈ field f.1 f.2 → j < g.1 := fun g hg wide j hj => by
      refine not_le.mp fun ge => ?_
      have first := first g hg
      rw [mem_field] at hj
      have both : g.1 ∈ field f.1 f.2 ∧ g.1 ∈ field g.1 g.2 := by
        simp only [mem_field]
        omega
      exact Finset.disjoint_left.mp (apart g hg) both.1 both.2
    refine ih (fun j => gone j ∨ j ∈ field f.1 f.2) ordered disjoint (fun g hg wide j hj => ?_)
      (fun g hg => above g (List.mem_cons_of_mem _ hg)) (fun j le off => ?_) ?_
      fun g hg => out g (List.mem_cons_of_mem _ hg)
    · rcases hj with hj | hj
      · exact below g (List.mem_cons_of_mem _ hg) wide j hj
      · exact here g hg wide j hj
    · exact testBit_of_squeeze (below f List.mem_cons_self) (above f List.mem_cons_self) h le
        (fun hg => off (.inl hg)) fun hj => off (.inr hj)
    · exact fun hj => hj.elim off (out f List.mem_cons_self)

theorem testBit_of_hash {high : Nat}
    (h : ((x >>> base) ^^^ (x >>> high)) % 2 ^ width = ((y >>> base) ^^^ (y >>> high)) % 2 ^ width)
    (same : ∀ i, high ≤ i → x.testBit i = y.testBit i) (hi : i ∈ field base width) :
    x.testBit i = y.testBit i := by
  obtain ⟨ge, lt⟩ := mem_field.mp hi
  have hash := congrArg (fun n => n.testBit (i - base)) h
  simp only [Nat.testBit_mod_two_pow, Nat.testBit_xor, Nat.testBit_shiftRight] at hash
  rw [Nat.add_sub_cancel' ge, same _ (Nat.le_add_right high _)] at hash
  have inside : i - base < width := by omega
  simpa [inside] using hash

theorem exists_hash {d : Nat} (hd : 0 < d) (x : Nat) (fits : x < 2 ^ width) :
    ∃ y < 2 ^ width, y ^^^ (y >>> d) = x := by
  induction x using Nat.strong_induction_on with
  | h x ih =>
    by_cases zero : x = 0
    · exact ⟨0, Nat.two_pow_pos width, by rw [Nat.zero_shiftRight, zero]; rfl⟩
    · -- the bits above solve the same for `x >> d`
      have less : x >>> d < x := by
        rw [Nat.shiftRight_eq_div_pow]
        exact Nat.div_lt_self (Nat.pos_of_ne_zero zero) (Nat.one_lt_two_pow hd.ne')
      obtain ⟨z, small, hz⟩ := ih (x >>> d) less (less.trans fits)
      refine ⟨x ^^^ z, Nat.xor_lt_two_pow fits small, ?_⟩
      rw [Nat.shiftRight_xor_distrib, ← hz, Nat.xor_assoc (z), Nat.xor_self, Nat.xor_zero,
        Nat.xor_assoc, Nat.xor_self, Nat.xor_zero]

end BitFields
