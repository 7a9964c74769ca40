import TraceCommit.Proofs.Field.Frobenius
import Mathlib.Algebra.Polynomial.Div
import Mathlib.Algebra.Polynomial.Degree.SmallDegree

/-!
# The Extension as a Quotient

An element of the extension is a polynomial of degree below four over the integers
modulo `p`, and no two elements are the same polynomial. The product of two of
them has degree up to six. Its terms of degree four to six are a multiple of
`x ^ 4`, and with `7` in the place of `x ^ 4` that multiple is what the product of
the elements adds to the lower terms. So the two products differ by a multiple of
`x ^ 4 - 7`, and the smaller one is the remainder.

The base field is the constant polynomials.

## Main definitions

* `Quartic.polynomial`: The polynomial of an element.
* `Quartic.relation`: The polynomial `x ^ 4 - 7`.
* `Quartic.highTerms`: What a product has of degree four to six.
* `Quartic.RingLaws`: The laws of a commutative ring.

## Theorems

* `Quartic.polynomial_injective`: An element is determined by its polynomial.
* `Quartic.polynomial_add`, `Quartic.polynomial_mul`: Sums are sums, and products
  are reduced modulo `x ^ 4 - 7`.
* `Quartic.isBase_iff`: The base field within the extension.
* `quartic_quotient_ring`: What the operations of the extension compute.
-/

namespace TraceCommit

namespace Quartic

open Polynomial

/-- The polynomial of an element, with its coefficients in ascending order. -/
noncomputable def polynomial (a : Quartic) : (ZMod fieldOrder)[X] :=
  C a.c0.toZMod + C a.c1.toZMod * X + C a.c2.toZMod * X ^ 2 + C a.c3.toZMod * X ^ 3

/-- The polynomial that stands for zero. -/
noncomputable def relation : (ZMod fieldOrder)[X] := X ^ 4 - C 7

theorem toZMod_fourthPower : fourthPower.toZMod = 7 := rfl

theorem relation_monic : relation.Monic :=
  monic_X_pow_sub_C 7 four_ne_zero

theorem degree_relation : relation.degree = 4 :=
  degree_X_pow_sub_C (by decide) 7

theorem degree_polynomial_lt (a : Quartic) : a.polynomial.degree < relation.degree := by
  have hdescending : a.polynomial =
      C a.c3.toZMod * X ^ 3 + C a.c2.toZMod * X ^ 2 + C a.c1.toZMod * X + C a.c0.toZMod := by
    unfold polynomial
    ring
  rw [degree_relation, hdescending]
  exact degree_cubic_lt

theorem coeff_polynomial (a : Quartic) :
    a.polynomial.coeff 0 = a.c0.toZMod ∧ a.polynomial.coeff 1 = a.c1.toZMod ∧
      a.polynomial.coeff 2 = a.c2.toZMod ∧ a.polynomial.coeff 3 = a.c3.toZMod := by
  unfold polynomial
  simp [coeff_X, coeff_C]

/-- An element is determined by its polynomial. -/
theorem polynomial_injective : Function.Injective polynomial := by
  intro a b h
  rcases coeff_polynomial a with ⟨ha0, ha1, ha2, ha3⟩
  rcases coeff_polynomial b with ⟨hb0, hb1, hb2, hb3⟩
  rw [h] at ha0 ha1 ha2 ha3
  exact Quartic.ext (Element.toZMod_injective (ha0.symm.trans hb0))
    (Element.toZMod_injective (ha1.symm.trans hb1)) (Element.toZMod_injective (ha2.symm.trans hb2))
    (Element.toZMod_injective (ha3.symm.trans hb3))

theorem polynomial_add (a b : Quartic) :
    (a + b).polynomial = a.polynomial + b.polynomial := by
  unfold polynomial
  rw [add_def]
  simp only [Element.toZMod_add, C_add]
  ring

/-- The terms of degree four to six of a product, over `x ^ 4`. -/
noncomputable def highTerms (a b : Quartic) : (ZMod fieldOrder)[X] :=
  C (a.c1 * b.c3 + a.c2 * b.c2 + a.c3 * b.c1).toZMod +
    C (a.c2 * b.c3 + a.c3 * b.c2).toZMod * X + C (a.c3 * b.c3).toZMod * X ^ 2

/-- Products are reduced modulo `x ^ 4 - 7`. -/
theorem polynomial_mul (a b : Quartic) :
    (a * b).polynomial = a.polynomial * b.polynomial %ₘ relation := by
  have hsplit : (a * b).polynomial + relation * highTerms a b = a.polynomial * b.polynomial := by
    -- Times `x ^ 4` the high terms are those of the product, and times `7` they
    -- are what has been added to the lower ones.
    unfold relation highTerms polynomial
    rw [mul_def, ← toZMod_fourthPower]
    simp only [Element.toZMod_add, Element.toZMod_mul, C_add, C_mul]
    ring
  -- What is left has degree below four, and remainders are unique.
  exact (div_modByMonic_unique _ _ relation_monic ⟨hsplit, degree_polynomial_lt _⟩).2.symm

/-- The operations, with their own zero and one, obey the laws of a commutative
    ring. -/
structure RingLaws : Prop where
  add_assoc : ∀ a b c : Quartic, a + b + c = a + (b + c)
  add_comm : ∀ a b : Quartic, a + b = b + a
  zero_add : ∀ a : Quartic, 0 + a = a
  neg_add_cancel : ∀ a : Quartic, -a + a = 0
  sub_eq_add_neg : ∀ a b : Quartic, a - b = a + -b
  mul_assoc : ∀ a b c : Quartic, a * b * c = a * (b * c)
  mul_comm : ∀ a b : Quartic, a * b = b * a
  one_mul : ∀ a : Quartic, 1 * a = a
  mul_add : ∀ a b c : Quartic, a * (b + c) = a * b + a * c

theorem ringLaws : RingLaws where
  add_assoc := add_assoc
  add_comm := add_comm
  zero_add := zero_add
  neg_add_cancel := neg_add_cancel
  sub_eq_add_neg := sub_eq_add_neg
  mul_assoc := mul_assoc
  mul_comm := mul_comm
  one_mul := one_mul
  mul_add := mul_add

/-- An element without coefficients above the constant one comes from the base
    field. -/
theorem isBase_iff (a : Quartic) : a.isBase = true ↔ ∃ s, ofBase s = a := by
  simp only [isBase, Bool.and_eq_true, decide_eq_true_eq]
  constructor
  · rintro ⟨⟨h1, h2⟩, h3⟩
    exact ⟨a.c0, Quartic.ext rfl h1.symm h2.symm h3.symm⟩
  · rintro ⟨s, rfl⟩
    exact ⟨⟨rfl, rfl⟩, rfl⟩

end Quartic

/-- Elements of the extension are polynomials of degree below four over the
    integers modulo `p`, no two of them the same one. Their sum is the sum of these
    polynomials, and their product the product modulo `x ^ 4 - 7`. Squaring
    multiplies an element by itself. The operations make a commutative ring, which
    holds the base field: as the elements without coefficients above the constant
    one, with its own sums and products. Scaling by an element of the base field is
    multiplying with what it is in the extension. -/
theorem quartic_quotient_ring :
    ((∀ a : Quartic, a.polynomial.degree < 4) ∧ Function.Injective Quartic.polynomial ∧
      (∀ a b : Quartic, (a + b).polynomial = a.polynomial + b.polynomial) ∧
      ∀ a b : Quartic, (a * b).polynomial = a.polynomial * b.polynomial %ₘ Quartic.relation) ∧
      (∀ a : Quartic, a.square = a * a) ∧ Quartic.RingLaws ∧
      (∃ f : Element →+* Quartic, (∀ s, f s = .ofBase s) ∧ Function.Injective f ∧
        ∀ a : Quartic, a.isBase = true ↔ ∃ s, f s = a) ∧
      ∀ (a : Quartic) (s : Element), a.scale s = a * .ofBase s := by
  refine ⟨⟨fun a => ?_, Quartic.polynomial_injective, Quartic.polynomial_add,
    Quartic.polynomial_mul⟩, Quartic.square_eq_mul, Quartic.ringLaws,
    ⟨Quartic.ofBaseHom, fun _ => rfl, Quartic.ofBase_injective, Quartic.isBase_iff⟩,
    Quartic.scale_eq_mul⟩
  rw [← Quartic.degree_relation]
  exact a.degree_polynomial_lt

end TraceCommit
