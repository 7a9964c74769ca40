import TraceCommit.Power
import Mathlib.Algebra.Group.Basic
import Mathlib.Algebra.Group.Nat.Defs

/-!
# Square-and-Multiply Computes Powers

The loop over the bits of an exponent, in any monoid whose squaring is what it
says. What the loop has still to multiply with is always the current base to the
power of the exponent that is left: squaring the base halves the exponent, and
the bit that halving loses is the factor that goes into the result.

The field and its extension square in different ways, and both get their powers
from here.

## Theorems

* `selectPowers_eq`: What the loop adds to its result.
* `powerBySquaring_eq`: What comes out is the power.
* `squareTimes_eq`: Repeated squaring, with the power of two it stands for.
-/

namespace TraceCommit

variable {M : Type} [Monoid M] {square : M → M}

/-- Shifting by one place halves. -/
theorem toNat_shiftRight_bit (w : UInt64) : (w >>> 1).toNat = w.toNat / 2 := by
  rw [UInt64.toNat_shiftRight, Nat.shiftRight_eq_div_pow]
  rfl

/-- The bit that halving loses. -/
theorem and_one_eq_one_iff (w : UInt64) : w &&& 1 = 1 ↔ w.toNat % 2 = 1 := by
  rw [← UInt64.toNat_inj, UInt64.toNat_and]
  exact Nat.and_one_is_mod _ ▸ Iff.rfl

/-- What the selection loop adds to its result is the power. -/
theorem selectPowers_eq (hsquare : ∀ x, square x = x * x) (bits : Nat) :
    ∀ (result base : M) (exponent : UInt64), exponent.toNat < 2 ^ bits →
      selectPowers (· * ·) square bits result base exponent = result * base ^ exponent.toNat := by
  induction bits with
  | zero =>
      intro result base exponent h
      have h0 : exponent.toNat = 0 := by omega
      simp only [selectPowers, h0, pow_zero, mul_one]
  | succ bits ih =>
      intro result base exponent h
      unfold selectPowers
      split
      · rename_i h0
        rw [h0, UInt64.toNat_zero, pow_zero, mul_one]
      · have hhalf := toNat_shiftRight_bit exponent
        have hodd := and_one_eq_one_iff exponent
        rw [ih _ _ _ (by rw [hhalf]; omega), hhalf]
        -- The base is squared, so half the exponent is left, and a last bit.
        have hsplit : base ^ exponent.toNat =
            base ^ (exponent.toNat % 2) * square base ^ (exponent.toNat / 2) := by
          rw [hsquare, ← pow_two, ← pow_mul, ← pow_add, Nat.mod_add_div]
        split
        · rename_i h1
          rw [hsplit, hodd.mp h1, pow_one, mul_assoc]
        · rename_i h1
          have hrest : exponent.toNat % 2 = 0 := by
            rw [hodd] at h1
            omega
          rw [hsplit, hrest, pow_zero, one_mul]

/-- Square-and-multiply computes powers. -/
theorem powerBySquaring_eq (hsquare : ∀ x, square x = x * x) (base : M) (exponent : UInt64) :
    powerBySquaring 1 (· * ·) square base exponent = base ^ exponent.toNat := by
  unfold powerBySquaring
  rw [selectPowers_eq hsquare 64 1 base exponent exponent.toNat_lt, one_mul]

/-- Squaring over and over doubles the exponent every time. -/
theorem squareTimes_eq (hsquare : ∀ x, square x = x * x) (count : Nat) :
    ∀ base : M, squareTimes square count base = base ^ 2 ^ count := by
  induction count with
  | zero =>
      intro base
      rw [pow_zero, pow_one]
      rfl
  | succ count ih =>
      intro base
      unfold squareTimes
      rw [ih, hsquare, ← pow_two, ← pow_mul, ← pow_succ']

end TraceCommit
