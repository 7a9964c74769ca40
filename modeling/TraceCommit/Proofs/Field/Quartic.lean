import TraceCommit.Field.Quartic
import TraceCommit.Proofs.Field.Unity
import Mathlib.Tactic.LinearCombination

/-!
# The Extension and its Conjugations

Elements of the extension are polynomials in `x` modulo `x ^ 4 - w`, where `w` is
the generator of the base field. They form a commutative ring, which can be read
off the coefficients of sums and products.

Substituting `z * x` for `x` respects the products if it respects `x ^ 4 = w`,
which it does exactly for the fourth roots of unity `z`. These substitutions are
the conjugations. The Frobenius map is the one for `i = w ^ ((p - 1) / 4)`, and
the square of `i` is minus one because `w` is a generator.

For the same reason `w` is not a square, and neither is `w` times a square other
than zero. So a difference `a ^ 2 - w * b ^ 2` vanishes only if both terms do.

## Main definitions

* `Quartic.conjugate`: Substituting a multiple of `x` for `x`.

## Theorems

* `Quartic.conjugate_mul`: Conjugations respect products.
* `Quartic.frobeniusTimes_eq`: The Frobenius map is a conjugation.
* `Quartic.frobeniusRoot_sq`: By a square root of minus one.
* `Quartic.scale_eq_mul`: Scaling is a product.
* `Element.eq_zero_of_sq_eq`: The base field element `w` is not a square.
-/

namespace TraceCommit

/-- The root of order two. -/
theorem unityRoot_one : unityRoot 1 = -1 := by
  rw [← unityRoot_succ_pow_half (k := 0) (by decide), pow_zero, pow_one]

/-- The generator is not a square, and neither is it times a square other than
    zero: its power halfway to `p - 1` is minus one, and that of a square is one. -/
theorem Element.eq_zero_of_sq_eq {a b : Element} (h : a ^ 2 = generator * b ^ 2) :
    a = 0 ∧ b = 0 := by
  have hgenerator : generator ≠ 0 := by decide
  by_cases hb : b = 0
  · rw [hb, zero_pow two_ne_zero, mul_zero] at h
    exact ⟨(pow_eq_zero_iff two_ne_zero).mp h, hb⟩
  · exfalso
    have ha : a ≠ 0 := by
      rintro rfl
      rw [zero_pow two_ne_zero] at h
      exact mul_ne_zero hgenerator (pow_ne_zero 2 hb) h.symm
    have hhalf : 2 * ((fieldOrder - 1) / 2 ^ 1) = fieldOrder - 1 := by decide
    have hone : (1 : Element) = -1 :=
      calc (1 : Element) = a ^ (fieldOrder - 1) := (pow_fieldOrder_sub_one ha).symm
        _ = (a ^ 2) ^ ((fieldOrder - 1) / 2 ^ 1) := by rw [← pow_mul, hhalf]
        _ = unityRoot 1 * b ^ (fieldOrder - 1) := by
          rw [h, mul_pow, ← pow_mul, hhalf, unityRoot]
        _ = -1 := by rw [unityRoot_one, pow_fieldOrder_sub_one hb, mul_one]
    exact absurd hone (by decide)

namespace Quartic

theorem zero_def : (0 : Quartic) = ⟨0, 0, 0, 0⟩ := rfl

theorem one_def : (1 : Quartic) = ⟨1, 0, 0, 0⟩ := rfl

theorem add_def (a b : Quartic) :
    a + b = ⟨a.c0 + b.c0, a.c1 + b.c1, a.c2 + b.c2, a.c3 + b.c3⟩ := rfl

theorem sub_def (a b : Quartic) :
    a - b = ⟨a.c0 - b.c0, a.c1 - b.c1, a.c2 - b.c2, a.c3 - b.c3⟩ := rfl

theorem neg_def (a : Quartic) : -a = ⟨-a.c0, -a.c1, -a.c2, -a.c3⟩ := rfl

theorem mul_def (a b : Quartic) :
    a * b = ⟨a.c0 * b.c0 + fourthPower * (a.c1 * b.c3 + a.c2 * b.c2 + a.c3 * b.c1),
      a.c0 * b.c1 + a.c1 * b.c0 + fourthPower * (a.c2 * b.c3 + a.c3 * b.c2),
      a.c0 * b.c2 + a.c1 * b.c1 + a.c2 * b.c0 + fourthPower * a.c3 * b.c3,
      a.c0 * b.c3 + a.c1 * b.c2 + a.c2 * b.c1 + a.c3 * b.c0⟩ := rfl

/-- The extension is a commutative ring, coefficient by coefficient. -/
instance : CommRing Quartic where
  add_assoc a b c := by simp only [add_def, add_assoc]
  zero_add a := by simp only [add_def, zero_def, zero_add]
  add_zero a := by simp only [add_def, zero_def, add_zero]
  add_comm a b := by simp only [add_def, add_comm]
  sub_eq_add_neg a b := by simp only [sub_def, add_def, neg_def, sub_eq_add_neg]
  neg_add_cancel a := by simp only [add_def, neg_def, zero_def, neg_add_cancel]
  mul_assoc a b c := by ext <;> simp only [mul_def] <;> ring
  mul_comm a b := by ext <;> simp only [mul_def] <;> ring
  one_mul a := by ext <;> simp only [mul_def, one_def] <;> ring
  mul_one a := by ext <;> simp only [mul_def, one_def] <;> ring
  zero_mul a := by ext <;> simp only [mul_def, zero_def] <;> ring
  mul_zero a := by ext <;> simp only [mul_def, zero_def] <;> ring
  left_distrib a b c := by ext <;> simp only [mul_def, add_def] <;> ring
  right_distrib a b c := by ext <;> simp only [mul_def, add_def] <;> ring
  nsmul := nsmulRec
  zsmul := zsmulRec

theorem ofBase_mul (a b : Element) : ofBase (a * b) = ofBase a * ofBase b := by
  ext <;> simp only [ofBase, mul_def] <;> ring

/-- Scaling by a base field element is multiplying with it. -/
theorem scale_eq_mul (a : Quartic) (s : Element) : a.scale s = a * ofBase s := by
  ext <;> simp only [scale, map, ofBase, mul_def] <;> ring

/-- The element with `z * x` in the place of `x`. -/
def conjugate (z : Element) (a : Quartic) : Quartic :=
  ⟨a.c0, a.c1 * z, a.c2 * (z * z), a.c3 * (z * z * z)⟩

theorem conjugate_one (a : Quartic) : conjugate 1 a = a := by
  simp only [conjugate, mul_one]

theorem conjugate_conjugate (z z' : Element) (a : Quartic) :
    conjugate z (conjugate z' a) = conjugate (z * z') a := by
  unfold conjugate
  rw [Quartic.mk.injEq]
  refine ⟨rfl, ?_, ?_, ?_⟩
  · ring
  · ring
  · ring

/-- Where `x ^ 4` stays what it is, products are respected. -/
theorem conjugate_mul {z : Element} (hz : z ^ 4 = 1) (a b : Quartic) :
    conjugate z (a * b) = conjugate z a * conjugate z b := by
  unfold conjugate
  rw [mul_def, mul_def, Quartic.mk.injEq]
  -- Only the terms that were folded back at `x ^ 4` have gained a power of `z`.
  refine ⟨?_, ?_, ?_, ?_⟩
  · linear_combination
      (-fourthPower * (a.c1 * b.c3 + a.c2 * b.c2 + a.c3 * b.c1)) * hz
  · linear_combination (-fourthPower * z * (a.c2 * b.c3 + a.c3 * b.c2)) * hz
  · linear_combination (-fourthPower * z ^ 2 * a.c3 * b.c3) * hz
  · ring

theorem fourthPower_eq : fourthPower = Element.generator := by decide

/-- The Frobenius map multiplies `x` by the root of order four. -/
theorem frobeniusRoot_eq : frobeniusRoot = unityRoot 2 := by
  have hexponent : ((modulus - 1) / 4).toNat = (fieldOrder - 1) / 2 ^ 2 := by decide +kernel
  unfold frobeniusRoot unityRoot
  rw [Element.pow_eq, fourthPower_eq, hexponent]

theorem frobeniusRoot_sq : frobeniusRoot ^ 2 = -1 := by
  rw [frobeniusRoot_eq, unityRoot_succ_sq (by decide), unityRoot_one]

theorem frobeniusRoot_pow_four : frobeniusRoot ^ 4 = 1 := by
  have hsq := frobeniusRoot_sq
  linear_combination (frobeniusRoot ^ 2 - 1) * hsq

/-- The Frobenius map, any number of times, is a conjugation. -/
theorem frobeniusTimes_eq (a : Quartic) (count : Nat) :
    a.frobeniusTimes count = conjugate (frobeniusRoot ^ count) a := by
  -- Four times change nothing, so only the remainder of the count matters.
  have hcount : frobeniusRoot ^ count = frobeniusRoot ^ (count % degree) := by
    conv_lhs => rw [← Nat.div_add_mod count 4, pow_add, pow_mul, frobeniusRoot_pow_four, one_pow,
      one_mul]
    rfl
  have hsmall : count % degree < 4 := Nat.mod_lt count (by decide)
  unfold frobeniusTimes
  simp only [hcount]
  by_cases hzero : count % degree = 0
  · rw [if_pos hzero, hzero, pow_zero, conjugate_one]
  · rw [if_neg hzero, Element.pow_ofNat (Nat.lt_trans hsmall (by decide)), mul_one]
    rfl

end Quartic

end TraceCommit
