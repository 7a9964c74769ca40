import TraceCommit.Proofs.Field.Quartic

/-!
# Inversion through the Norm

The norm of an element is the product of its four conjugates. They come in two
pairs: an element and its conjugate at `-x` have a product with even powers of
`x` only, say `s + t * x ^ 2`, and the other two conjugates have the product
`s - t * x ^ 2`. So the norm is `s ^ 2 - w * t ^ 2`, which lies in the base field.

It is zero for zero alone. A difference of this form vanishes only if `s` and `t`
do. That is two equations in the coefficients, from which a third difference of
this form follows to vanish, in `c0 ^ 2 - w * c2 ^ 2` and `c1 ^ 2 - w * c3 ^ 2`,
and then these vanish and all coefficients with them.

An inverse is therefore found for every element but zero, as the product of the
other conjugates over the norm.

## Main definitions

* `Quartic.pairConstant`, `Quartic.pairSquare`: The product of a pair.

## Theorems

* `Quartic.norm_eq`: The norm lies in the base field.
* `Quartic.norm_eq_zero_iff`: It is zero for zero alone.
* `Quartic.inverse?_eq_some_iff`: What inversion finds.
* `quartic_inverse_exact`: When there is an inverse, and what it is.
-/

namespace TraceCommit

namespace Quartic

/-- The constant coefficient of the product of an element and its conjugate at
    `-x`. -/
def pairConstant (a : Quartic) : Element :=
  a.c0 * a.c0 + fourthPower * (a.c2 * a.c2) - fourthPower * (a.c1 * a.c3 + a.c1 * a.c3)

/-- The coefficient of `x ^ 2` in that product. -/
def pairSquare (a : Quartic) : Element :=
  a.c0 * a.c2 + a.c0 * a.c2 - a.c1 * a.c1 - fourthPower * (a.c3 * a.c3)

/-- An element and its conjugate at `-x` have a product in even powers. -/
theorem conjugate_neg_one_mul (a : Quartic) :
    conjugate (-1) a * a = ⟨a.pairConstant, 0, a.pairSquare, 0⟩ := by
  unfold conjugate pairConstant pairSquare
  rw [mul_def, Quartic.mk.injEq]
  refine ⟨?_, ?_, ?_, ?_⟩
  · ring
  · ring
  · ring
  · ring

/-- The four conjugates are two pairs. -/
theorem norm_eq_mul (a : Quartic) :
    a.norm = conjugate frobeniusRoot (conjugate (-1) a * a) * (conjugate (-1) a * a) := by
  have hfour := frobeniusRoot_pow_four
  have hminus : (-1 : Element) ^ 4 = 1 := by ring
  show (a.frobeniusTimes 1 * a).frobeniusTimes 2 * a.frobeniusTimes 1 * a = _
  rw [frobeniusTimes_eq, frobeniusTimes_eq, pow_one, frobeniusRoot_sq, conjugate_mul hminus,
    conjugate_mul hfour, conjugate_conjugate, conjugate_conjugate, mul_comm (-1) frobeniusRoot]
  ring

/-- The norm lies in the base field. -/
theorem norm_eq (a : Quartic) :
    a.norm = ofBase (a.pairConstant ^ 2 - fourthPower * a.pairSquare ^ 2) := by
  have hsq := frobeniusRoot_sq
  rw [norm_eq_mul, conjugate_neg_one_mul]
  generalize a.pairConstant = s
  generalize a.pairSquare = t
  unfold conjugate ofBase
  rw [mul_def, Quartic.mk.injEq]
  refine ⟨?_, ?_, ?_, ?_⟩
  · linear_combination (fourthPower * t ^ 2) * hsq
  · ring
  · linear_combination (s * t) * hsq
  · ring

/-- The norm is zero for zero alone. -/
theorem norm_eq_zero_iff (a : Quartic) : a.norm.c0 = 0 ↔ a = 0 := by
  have hnorm : a.norm.c0 = a.pairConstant ^ 2 - fourthPower * a.pairSquare ^ 2 := by
    rw [norm_eq, ofBase]
  rw [hnorm]
  constructor
  · intro h
    have hsq := frobeniusRoot_sq
    rw [fourthPower_eq] at h
    rcases Element.eq_zero_of_sq_eq (sub_eq_zero.mp h) with ⟨hconstant, hsquare⟩
    unfold pairConstant at hconstant
    unfold pairSquare at hsquare
    rw [fourthPower_eq] at hconstant hsquare
    -- The odd coefficients come with the root of minus one.
    have hthird : (a.c0 ^ 2 - Element.generator * a.c2 ^ 2) ^ 2 =
        Element.generator * (frobeniusRoot * (a.c1 ^ 2 - Element.generator * a.c3 ^ 2)) ^ 2 := by
      linear_combination
        (a.c0 ^ 2 + Element.generator * a.c2 ^ 2 + 2 * Element.generator * a.c1 * a.c3) * hconstant
          - Element.generator * (2 * a.c0 * a.c2 + a.c1 ^ 2 + Element.generator * a.c3 ^ 2) *
            hsquare
          - Element.generator * (a.c1 ^ 2 - Element.generator * a.c3 ^ 2) ^ 2 * hsq
    rcases Element.eq_zero_of_sq_eq hthird with ⟨heven, hodd⟩
    have hroot : frobeniusRoot ≠ 0 := by
      intro hzero
      rw [hzero, zero_pow two_ne_zero] at hsq
      exact absurd hsq (by decide)
    have hodd' := (mul_eq_zero.mp hodd).resolve_left hroot
    rcases Element.eq_zero_of_sq_eq (sub_eq_zero.mp heven) with ⟨h0, h2⟩
    rcases Element.eq_zero_of_sq_eq (sub_eq_zero.mp hodd') with ⟨h1, h3⟩
    exact Quartic.ext h0 h1 h2 h3
  · rintro rfl
    unfold pairConstant pairSquare
    simp only [zero_def, mul_zero, add_zero, sub_zero, zero_pow two_ne_zero]

/-- Multiplied with the product of its other conjugates, an element is its norm. -/
theorem mul_conjugateProduct (a : Quartic) : a * a.conjugateProduct = ofBase a.norm.c0 := by
  rw [mul_comm, ← norm, norm_eq]
  rfl

/-- An element other than zero has an inverse. -/
theorem exists_inverse {a : Quartic} (ha : a ≠ 0) : ∃ b, a.inverse? = some b ∧ a * b = 1 := by
  have hnorm : a.norm.c0 ≠ 0 := fun hzero => ha ((norm_eq_zero_iff a).mp hzero)
  have hinverse : a.norm.c0.inverse? = some (a.norm.c0.pow (modulus - 2)) := if_neg hnorm
  refine ⟨a.conjugateProduct.scale (a.norm.c0.pow (modulus - 2)), ?_, ?_⟩
  · unfold inverse?
    rw [if_neg ha, hinverse, Option.map_some]
  · rw [scale_eq_mul, ← mul_assoc, mul_conjugateProduct, ← ofBase_mul,
      Element.mul_pow_of_ne_zero hnorm]
    rfl

theorem inverse?_eq_none_iff (a : Quartic) : a.inverse? = none ↔ a = 0 := by
  constructor
  · intro hnone
    by_contra ha
    rcases exists_inverse ha with ⟨b, hb, _⟩
    rw [hnone] at hb
    cases hb
  · intro hzero
    unfold inverse?
    rw [if_pos hzero]

/-- Inversion finds the one element that gives one. -/
theorem inverse?_eq_some_iff (a b : Quartic) : a.inverse? = some b ↔ a * b = 1 := by
  by_cases ha : a = 0
  · have hnone := (inverse?_eq_none_iff a).mpr ha
    rw [hnone, ha, zero_mul]
    exact ⟨fun h => (by cases h), fun h => absurd h (by decide)⟩
  · rcases exists_inverse ha with ⟨c, hc, hmul⟩
    rw [hc, Option.some.injEq]
    constructor
    · rintro rfl
      exact hmul
    · intro hb
      -- Two inverses of one element are each other's product with one.
      calc c = c * (a * b) := by rw [hb, mul_one]
        _ = a * c * b := by ring
        _ = b := by rw [hmul, one_mul]

end Quartic

/-- The norm of an element has no coefficients above the constant one, and is
    zero for zero alone. So inversion fails for zero alone, as a division by
    zero, and what it finds otherwise is the inverse. -/
theorem quartic_inverse_exact (a : Quartic) :
    (a.norm.c1 = 0 ∧ a.norm.c2 = 0 ∧ a.norm.c3 = 0) ∧ (a.norm.c0 = 0 ↔ a = 0) ∧
      (a.inverse? = none ↔ a = 0) ∧ (∀ b, a.inverse? = some b ↔ a * b = 1) ∧
      (∀ e, a.inverse = .error e ↔ e = .divisionByZero ∧ a = 0) ∧
      (∀ b, a.inverse = .ok b ↔ a * b = 1) := by
  refine ⟨?_, Quartic.norm_eq_zero_iff a, Quartic.inverse?_eq_none_iff a,
    Quartic.inverse?_eq_some_iff a, fun e => ?_, fun b => ?_⟩
  · rw [Quartic.norm_eq, Quartic.ofBase]
    exact ⟨rfl, rfl, rfl⟩
  · rw [← Quartic.inverse?_eq_none_iff]
    unfold Quartic.inverse
    cases a.inverse? with
    | none => simp only [Except.error.injEq, and_true, eq_comm]
    | some b => simp only [reduceCtorEq, and_false]
  · rw [← Quartic.inverse?_eq_some_iff]
    unfold Quartic.inverse
    cases a.inverse? with
    | none => simp only [reduceCtorEq]
    | some c => simp only [Except.ok.injEq, Option.some.injEq]

end TraceCommit
