import TraceCommit.Proofs.Field.Quartic
import Mathlib.Algebra.CharP.Algebra
import Mathlib.Algebra.CharP.Lemmas

/-!
# The Frobenius Map Raises to the Power `p`

The Frobenius map multiplies coefficients by powers of a fourth root of unity and
never raises anything to a power. That it is the power with exponent `p` all the
same rests on three facts. In characteristic `p` the power of a sum is the sum of
the powers. A coefficient is its own power, by Fermat's theorem. And `x` is a
fourth root of `w`, so with `p = 4 * ((p - 1) / 4) + 1` its power is `x` times
`w ^ ((p - 1) / 4)`, which is the root that the map multiplies by.

So the power of a polynomial in `x` is the same polynomial in a multiple of `x`,
which is to say the conjugate, and conjugates of conjugates are conjugates.

## Main definitions

* `Quartic.ofBaseHom`: The base field within the extension.
* `Quartic.adjoined`: The element `x`.

## Theorems

* `Quartic.pow_eq`: Square-and-multiply computes powers.
* `Element.pow_fieldOrder`: Elements of the base field are their own powers.
* `Quartic.adjoined_pow_fieldOrder`: The power of `x`.
* `Quartic.pow_fieldOrder`: The power with exponent `p` is a conjugate.
* `Quartic.frobeniusTimes_eq_pow`: So the Frobenius map is that power.
* `quartic_frobenius_powers`: What the Frobenius map computes.
-/

namespace TraceCommit

/-- An element of the base field is its own power with exponent `p`. -/
theorem Element.pow_fieldOrder (a : Element) : a ^ fieldOrder = a := by
  have hexponent : fieldOrder = fieldOrder - 1 + 1 := by decide
  by_cases ha : a = 0
  · rw [ha, zero_pow fieldOrder_prime.ne_zero]
  · rw [hexponent, pow_succ, pow_fieldOrder_sub_one ha, one_mul]

instance : CharP Element fieldOrder :=
  RingHom.charP Element.residueHom Element.toZMod_injective fieldOrder

namespace Quartic

theorem ofBase_add (a b : Element) : ofBase (a + b) = ofBase a + ofBase b := by
  simp only [ofBase, add_def, add_zero]

theorem ofBase_injective : Function.Injective ofBase := by
  intro a b h
  exact congrArg c0 h

/-- The base field within the extension. -/
def ofBaseHom : Element →+* Quartic where
  toFun := ofBase
  map_zero' := rfl
  map_one' := rfl
  map_add' := ofBase_add
  map_mul' := ofBase_mul

instance : CharP Quartic fieldOrder :=
  charP_of_injective_ringHom (f := ofBaseHom) ofBase_injective fieldOrder

theorem ofBase_pow (a : Element) (n : Nat) : ofBase (a ^ n) = ofBase a ^ n :=
  map_pow ofBaseHom a n

/-- The square with its symmetric products formed once is the square. -/
theorem square_eq_mul (a : Quartic) : a.square = a * a := by
  ext <;> simp only [square, Element.square, Element.double, mul_def] <;> ring

/-- Square-and-multiply computes powers. -/
theorem pow_eq (a : Quartic) (exponent : UInt64) : a.pow exponent = a ^ exponent.toNat :=
  powerBySquaring_eq square_eq_mul a exponent

/-- The element `x`, a fourth root of `w`. -/
def adjoined : Quartic := ⟨0, 1, 0, 0⟩

theorem adjoined_sq : adjoined ^ 2 = ⟨0, 0, 1, 0⟩ := by
  rw [pow_two]
  ext <;> simp only [adjoined, mul_def] <;> ring

theorem adjoined_pow_four : adjoined ^ 4 = ofBase fourthPower := by
  have hfour : adjoined ^ 4 = adjoined ^ 2 * adjoined ^ 2 := by ring
  rw [hfour, adjoined_sq]
  ext <;> simp only [ofBase, mul_def] <;> ring

theorem frobeniusRoot_eq_pow : frobeniusRoot = fourthPower ^ ((fieldOrder - 1) / 2 ^ 2) := by
  rw [frobeniusRoot_eq, fourthPower_eq]
  rfl

/-- Four powers of `x` are one of `w`. The exponents are variables here, so that
    nothing computes these powers. -/
theorem adjoined_pow_of_eq (quotient exponent : Nat) (h : exponent = 4 * quotient + 1) :
    adjoined ^ exponent = ofBase (fourthPower ^ quotient) * adjoined := by
  rw [h, pow_succ, pow_mul, adjoined_pow_four, ofBase_pow]

/-- The power of `x` is the multiple of `x` that the Frobenius map puts for it. -/
theorem adjoined_pow_fieldOrder :
    adjoined ^ fieldOrder = ofBase frobeniusRoot * adjoined := by
  rw [adjoined_pow_of_eq ((fieldOrder - 1) / 2 ^ 2) fieldOrder (by decide), frobeniusRoot_eq_pow]

/-- A conjugate is the polynomial in a multiple of `x`. -/
theorem conjugate_eq_sum (z : Element) (a : Quartic) : conjugate z a =
    ofBase a.c0 + ofBase a.c1 * (ofBase z * adjoined) +
      ofBase a.c2 * (ofBase z * adjoined) ^ 2 + ofBase a.c3 * (ofBase z * adjoined) ^ 3 := by
  have hcube : (ofBase z * adjoined) ^ 3 = (ofBase z) ^ 3 * (adjoined ^ 2 * adjoined) := by ring
  rw [hcube, mul_pow, adjoined_sq, ← ofBase_pow, ← ofBase_pow]
  unfold conjugate adjoined ofBase
  -- Each summand has one coefficient, and they stand in different places.
  simp only [mul_def, add_def, mul_zero, zero_mul, add_zero, zero_add, mul_one]
  rw [Quartic.mk.injEq]
  refine ⟨rfl, rfl, ?_, ?_⟩
  · ring
  · ring

theorem eq_sum (a : Quartic) :
    a = ofBase a.c0 + ofBase a.c1 * adjoined + ofBase a.c2 * adjoined ^ 2 +
      ofBase a.c3 * adjoined ^ 3 := by
  have hone : ofBase 1 = 1 := rfl
  have hself := conjugate_eq_sum 1 a
  rwa [conjugate_one, hone, one_mul] at hself

/-- The power with exponent `p` is the conjugate by the Frobenius root. -/
theorem pow_fieldOrder (a : Quartic) : a ^ fieldOrder = conjugate frobeniusRoot a := by
  have hself (c : Element) : ofBase c ^ fieldOrder = ofBase c := by
    rw [← ofBase_pow, Element.pow_fieldOrder]
  have hx (n : Nat) : (adjoined ^ n) ^ fieldOrder = (ofBase frobeniusRoot * adjoined) ^ n := by
    rw [pow_right_comm, adjoined_pow_fieldOrder]
  conv_lhs => rw [eq_sum a]
  rw [conjugate_eq_sum, add_pow_char, add_pow_char, add_pow_char, mul_pow, mul_pow, mul_pow, hself,
    hself, hself, hself, hx, hx, adjoined_pow_fieldOrder]

/-- Applied any number of times, the Frobenius map raises to the power with
    exponent `p` as often. -/
theorem frobeniusTimes_eq_pow (a : Quartic) (count : Nat) :
    a.frobeniusTimes count = a ^ fieldOrder ^ count := by
  rw [frobeniusTimes_eq]
  induction count with
  | zero => rw [pow_zero, pow_zero, pow_one, conjugate_one]
  | succ count ih =>
      rw [pow_succ fieldOrder, pow_mul, ← ih, pow_fieldOrder, conjugate_conjugate, ← pow_succ']

/-- Raising to the 64-bit power `p` over and over. -/
theorem iterate_pow_modulus (a : Quartic) (count : Nat) :
    (fun b : Quartic => b.pow modulus)^[count] a = a ^ fieldOrder ^ count := by
  induction count with
  | zero => rw [Function.iterate_zero_apply, pow_zero, pow_one]
  | succ count ih =>
      rw [Function.iterate_succ_apply', ih, pow_eq, toNat_modulus_eq, ← pow_mul, ← pow_succ]

end Quartic

/-- The Frobenius map, applied `count` times, is the power with exponent
    `p ^ count`, which is what raising to the power `p` comes to when it is done
    `count` times over. It respects sums and products, and four applications are
    none. -/
theorem quartic_frobenius_powers (a b : Quartic) (count : Nat) :
    a.frobeniusTimes count = a ^ fieldOrder ^ count ∧
      a.frobeniusTimes count = (fun c : Quartic => c.pow modulus)^[count] a ∧
      (a + b).frobeniusTimes count = a.frobeniusTimes count + b.frobeniusTimes count ∧
      (a * b).frobeniusTimes count = a.frobeniusTimes count * b.frobeniusTimes count ∧
      a.frobeniusTimes (count + 4) = a.frobeniusTimes count := by
  refine ⟨a.frobeniusTimes_eq_pow count, ?_, ?_, ?_, ?_⟩
  · rw [Quartic.iterate_pow_modulus, Quartic.frobeniusTimes_eq_pow]
  · simp only [Quartic.frobeniusTimes_eq_pow]
    exact add_pow_char_pow a b fieldOrder count
  · simp only [Quartic.frobeniusTimes_eq_pow]
    exact mul_pow a b _
  · rw [Quartic.frobeniusTimes_eq, Quartic.frobeniusTimes_eq, pow_add,
      Quartic.frobeniusRoot_pow_four, mul_one]

end TraceCommit
