import TraceCommit.Proofs.Field.Frobenius

/-!
# The Ways to Powers

There are three ways to a power: square-and-multiply over the bits of an exponent,
squaring over and over, and multiplying on from one power to the next. They lead to
the same powers. A power is a product of copies of its base, and the laws of
exponents hold as long as the exponents fit a word; what would not fit is cut off
before any power is taken.

For an element of the base field other than zero the exponent matters only up to
multiples of `p - 1`, by Fermat's theorem.

## Main definitions

* `PowerLaws`: Powers as products of copies, and the laws of exponents.

## Theorems

* `powerLaws_of_eq`: Powers with the exponents of words obey the laws.
* `Element.powTwoPower_eq`: Squaring over and over.
* `Element.powers_eq_pow`: Multiplying on.
* `Element.pow_congr_of_mod_eq`: Exponents that differ by a multiple of `p - 1`.
* `powers_agree`: All of it.
-/

namespace TraceCommit

/-- A power is the product of as many copies of the base as the exponent says, none
    of them giving one. Exponents are added and multiplied where the sum or the
    product fits a word. -/
structure PowerLaws {R : Type} [One R] [Mul R] (pow : R → UInt64 → R) : Prop where
  copies : ∀ a e, pow a e = (List.replicate e.toNat a).prod
  zero : ∀ a, pow a 0 = 1
  add : ∀ a (e f : UInt64), e.toNat + f.toNat < UInt64.size → pow a (e + f) = pow a e * pow a f
  mul : ∀ a (e f : UInt64), e.toNat * f.toNat < UInt64.size → pow (pow a e) f = pow a (e * f)

/-- Powers with the exponents of words obey the laws. -/
theorem powerLaws_of_eq {R : Type} [Monoid R] {pow : R → UInt64 → R}
    (hpow : ∀ a e, pow a e = a ^ e.toNat) : PowerLaws pow where
  copies a e := by rw [hpow, List.prod_replicate]
  zero a := by rw [hpow, UInt64.toNat_zero, pow_zero]
  add a e f hfits := by
    rw [hpow, hpow, hpow, UInt64.toNat_add, Nat.mod_eq_of_lt hfits, pow_add]
  mul a e f hfits := by
    rw [hpow, hpow, hpow, UInt64.toNat_mul, Nat.mod_eq_of_lt hfits, pow_mul]

namespace Element

theorem powTwoPower_eq (a : Element) (count : Nat) : a.powTwoPower count = a ^ 2 ^ count :=
  squareTimes_eq (fun _ => rfl) count a

/-- Multiplying on from one gives the powers one after another, as far as their
    exponents fit a word. -/
theorem powers_eq_pow {count : Nat} (hcount : count ≤ UInt64.size) (a : Element) :
    a.powers count = Array.ofFn fun i : Fin count => a.pow (UInt64.ofNat i) := by
  rw [powers_eq]
  refine congrArg Array.ofFn (funext fun i => ?_)
  rw [pow_ofNat (Nat.lt_of_lt_of_le i.isLt hcount)]

/-- Exponents that differ by a multiple of `p - 1` lead to the same power. -/
theorem pow_congr_of_mod_eq {a : Element} (ha : a ≠ 0) {e f : UInt64}
    (hmod : e.toNat % (fieldOrder - 1) = f.toNat % (fieldOrder - 1)) : a.pow e = a.pow f := by
  have hcycle := pow_fieldOrder_sub_one ha
  rw [pow_eq, pow_eq, pow_eq_pow_mod e.toNat hcycle, hmod, ← pow_eq_pow_mod f.toNat hcycle]

end Element

/-- Square-and-multiply computes powers, in the field and in the extension. In the
    field squaring `k` times over gives the power with exponent `2 ^ k`, a sequence
    of powers holds all powers below its length, and for an element other than zero
    only the remainder of the exponent by `p - 1` matters. -/
theorem powers_agree :
    PowerLaws Element.pow ∧ PowerLaws Quartic.pow ∧
      (∀ (a : Element) (k : Nat), a.powTwoPower k = (List.replicate (2 ^ k) a).prod) ∧
      (∀ (a : Element) (n : Nat), n ≤ UInt64.size →
        a.powers n = Array.ofFn fun i : Fin n => a.pow (UInt64.ofNat i)) ∧
      ∀ (a : Element) (e f : UInt64), a ≠ 0 →
        e.toNat % (fieldOrder - 1) = f.toNat % (fieldOrder - 1) → a.pow e = a.pow f := by
  refine ⟨powerLaws_of_eq Element.pow_eq, powerLaws_of_eq Quartic.pow_eq, fun a k => ?_,
    fun a n hn => a.powers_eq_pow hn, fun a e f ha hmod => Element.pow_congr_of_mod_eq ha hmod⟩
  rw [Element.powTwoPower_eq, List.prod_replicate]

/-- An exponent above `p - 1`, and the remainder that it leaves. -/
theorem powers_agree_beyond :
    (modulus + 4).toNat % (fieldOrder - 1) = (5 : UInt64).toNat % (fieldOrder - 1) ∧
      Element.generator.pow (modulus + 4) = Element.generator.pow 5 := by
  have hmod : (modulus + 4).toNat % (fieldOrder - 1) = (5 : UInt64).toNat % (fieldOrder - 1) := by
    decide
  rcases powers_agree with ⟨_, _, _, _, hcycle⟩
  exact ⟨hmod, hcycle Element.generator (modulus + 4) 5 (by decide) hmod⟩

end TraceCommit
