import TraceCommit.Proofs.Field.Ring
import Mathlib.RingTheory.RootsOfUnity.PrimitiveRoots

/-!
# Roots of Unity

The roots that transforms are made with. The generator has order `p - 1`, and
`2 ^ 32` divides that, so for every `k` up to 32 its power with exponent
`(p - 1) / 2 ^ k` is a primitive root of order `2 ^ k`. These roots are one
tower: each is the square of the next, which is why the twiddles of a layer do
not depend on the size of the whole transform.

## Main definitions

* `unityRoot`: The root of order `2 ^ k`.

## Theorems

* `Element.rootOfUnity_eq`: It is the one that the field hands out.
* `unityRoot_isPrimitiveRoot`: It is primitive.
* `unityRoot_succ_sq`: Each root is the square of the next.
* `unityRoot_succ_pow_half`: Halfway around lies minus one.
* `Element.powers_eq`: What a sequence of powers holds.
* `Element.ofWord_eq`, `Element.ofWide_eq`: Words and double words as elements.
-/

namespace TraceCommit

/-- The primitive root of order `2 ^ k`, for `k` up to the two-adicity. -/
noncomputable def unityRoot (k : Nat) : Element := Element.generator ^ ((fieldOrder - 1) / 2 ^ k)

theorem two_pow_dvd {k : Nat} (hk : k ≤ 32) : 2 ^ k ∣ fieldOrder - 1 :=
  (pow_dvd_pow 2 hk).trans (by decide)

/-- The field hands out the roots of the tower. -/
theorem Element.rootOfUnity_eq {k : Nat} (hk : k ≤ 32) :
    Element.rootOfUnity k = .ok (unityRoot k) := by
  unfold rootOfUnity unityRoot
  -- Shifting by `k` divides by `2 ^ k`.
  have hexponent : ((modulus - 1) >>> UInt64.ofNat k).toNat = (fieldOrder - 1) / 2 ^ k := by
    have hsmall : k < UInt64.size := Nat.lt_of_le_of_lt hk (by decide)
    rw [UInt64.toNat_shiftRight, Nat.shiftRight_eq_div_pow, UInt64.toNat_ofNat_of_lt' hsmall,
      Nat.mod_eq_of_lt (by omega)]
    rfl
  rw [if_neg (by unfold twoAdicity; omega), pow_eq, hexponent]

/-- The roots are primitive. -/
theorem unityRoot_isPrimitiveRoot {k : Nat} (hk : k ≤ 32) :
    IsPrimitiveRoot (unityRoot k) (2 ^ k) := by
  -- A power of a generator has the order that its exponent leaves over.
  have hgenerator : IsPrimitiveRoot Element.generator (fieldOrder - 1) := by
    rw [← Element.orderOf_generator]
    exact IsPrimitiveRoot.orderOf _
  exact hgenerator.pow (by decide) (Nat.div_mul_cancel (two_pow_dvd hk)).symm

theorem unityRoot_pow_order {k : Nat} (hk : k ≤ 32) : unityRoot k ^ 2 ^ k = 1 :=
  (unityRoot_isPrimitiveRoot hk).pow_eq_one

/-- Each root is the square of the next one. -/
theorem unityRoot_succ_sq {k : Nat} (hk : k + 1 ≤ 32) : unityRoot (k + 1) ^ 2 = unityRoot k := by
  unfold unityRoot
  rw [← pow_mul]
  congr 1
  -- Halving the exponent is exact, since the next power of two divides it too.
  have hdvd : 2 ∣ (fieldOrder - 1) / 2 ^ k := by
    rw [Nat.dvd_div_iff_mul_dvd (two_pow_dvd (by omega)), ← pow_succ]
    exact two_pow_dvd hk
  rw [pow_succ, ← Nat.div_div_eq_div_mul, Nat.div_mul_cancel hdvd]

/-- Halfway around the circle lies minus one, the primitive root of order two. -/
theorem unityRoot_succ_pow_half {k : Nat} (hk : k + 1 ≤ 32) :
    unityRoot (k + 1) ^ 2 ^ k = -1 := by
  have horder : IsPrimitiveRoot (unityRoot (k + 1) ^ 2 ^ k) 2 :=
    (unityRoot_isPrimitiveRoot hk).pow (Nat.two_pow_pos (k + 1)) (pow_succ 2 k)
  exact horder.eq_neg_one_of_two_right

namespace Element

/-- Appending powers goes on from `current` behind what is there. -/
theorem appendPowers_eq (base : Element) (count : Nat) : ∀ (current : Element)
    (powers : Array Element), appendPowers base count current powers =
      powers ++ Array.ofFn fun i : Fin count => current * base ^ i.val := by
  induction count with
  | zero =>
      intro current powers
      rw [Array.ofFn_zero, Array.append_empty]
      rfl
  | succ count ih =>
      intro current powers
      unfold appendPowers
      -- The power pushed first is the one that the rest starts behind.
      rw [ih, Array.ofFn_succ', Array.push_eq_append, Array.append_assoc]
      simp only [Fin.val_zero, Fin.val_succ, pow_zero, mul_one, pow_succ', mul_assoc]

/-- The powers of an element, in order. -/
theorem powers_eq (base : Element) (count : Nat) :
    base.powers count = Array.ofFn fun i : Fin count => base ^ i.val := by
  unfold powers
  rw [appendPowers_eq, Array.emptyWithCapacity_eq, Array.empty_append]
  simp only [one_mul]

/-- The element of a word is the word's number in the field. -/
theorem ofWord_eq (w : UInt64) : ofWord w = (w.toNat : Element) := by
  refine toZMod_injective ?_
  change ((Word.canonicalize w).toNat : ZMod fieldOrder) = residueHom (w.toNat : Element)
  rw [Word.toNat_canonicalize, ZMod.natCast_mod, map_natCast]

/-- So is that of a double word. -/
theorem ofWide_eq (w : Wide) : ofWide w = (w.toNat : Element) := by
  refine toZMod_injective ?_
  change ((Word.reduce w).toNat : ZMod fieldOrder) = residueHom (w.toNat : Element)
  rw [Word.toNat_reduce, ZMod.natCast_mod, map_natCast]

theorem natCast_toNat_val (a : Element) : (a.val.toNat : Element) = a :=
  toZMod_injective (map_natCast residueHom _)

/-- No power of two is zero in the field. -/
theorem two_pow_ne_zero (k : Nat) : ((2 ^ k : Nat) : Element) ≠ 0 := by
  -- Two is not a multiple of the modulus, and a field has no divisors of zero.
  have htwo : (2 : Element) ≠ 0 := by
    intro h
    have hmod : ((2 : Nat) : ZMod fieldOrder) = 0 := by
      rw [← map_natCast residueHom, Nat.cast_two, h, map_zero]
    exact absurd ((ZMod.natCast_eq_zero_iff 2 fieldOrder).mp hmod) (by decide)
  rw [Nat.cast_pow, Nat.cast_two]
  exact pow_ne_zero k htwo

end Element

end TraceCommit
