import TraceCommit.Proofs.Transform.Inverse
import TraceCommit.Transform.Extension

/-!
# What a Low-Degree Extension Holds

The extension of a polynomial holds its values at the points of the generator's
coset, and a polynomial with fewer coefficients than points is known by its
values, so a column of a trace and its extension belong to one polynomial.

## Main definitions

* `Interpolates`: The coefficients of the polynomial through given values.

## Theorems

* `lde_eq`: What the extension computes.
* `entry_extension`: Its values are those at the points of the coset.
* `interpolates_iff`: There is one polynomial through given values.
-/

namespace TraceCommit

open Finset

variable (c : Capability) (s : Schedule) {k : Nat} {coefficients : Array Element}

/-- The values on the generator's coset of `2 ^ k` points. -/
noncomputable def extension (k : Nat) (coefficients : Array Element) : Array Element :=
  spectrum k fun i => entry coefficients i * Element.generator ^ i

theorem size_extension (k : Nat) (coefficients : Array Element) :
    (extension k coefficients).size = 2 ^ k :=
  size_spectrum k _

/-- The values are those at the points of the coset. -/
theorem entry_extension (hsize : coefficients.size ≤ 2 ^ k) {i : Nat} (hi : i < 2 ^ k) :
    entry (extension k coefficients) i =
      (Polynomial.mk coefficients).eval (Element.generator * unityRoot k ^ i) := by
  unfold extension
  rw [entry_spectrum _ hi, Polynomial.eval_eq_sum hsize]
  unfold transformSum
  refine sum_congr rfl (fun t _ => ?_)
  rw [mul_pow, mul_assoc]

/-- An extension that the field has room for succeeds. -/
theorem lde_eq (hsize : coefficients.size = 2 ^ k) {rateBits : UInt64}
    (hrate : k + rateBits.toNat ≤ 32) :
    lde ⟨.of c, s⟩ coefficients rateBits = .ok (extension (k + rateBits.toNat) coefficients) := by
  -- Neither the sum of the two logarithms nor the length overflows a word.
  have hword := toNat_ofNat_of_le_width (by omega : k ≤ 64)
  have hextended := toNat_ofNat_of_le_width (by omega : k + rateBits.toNat ≤ 64)
  have hadd : Checked.add (UInt64.ofNat k) rateBits = .ok (UInt64.ofNat (k + rateBits.toNat)) := by
    rw [Checked.add_eq_ok_iff, hextended, hword]
  have hlength : coefficients.size <<< rateBits.toNat = 2 ^ (k + rateBits.toNat) := by
    rw [hsize, Nat.shiftLeft_eq, pow_add]
  have hle : coefficients.size ≤ 2 ^ (k + rateBits.toNat) := by
    rw [hsize]
    exact Nat.pow_le_pow_right Nat.two_pos (Nat.le_add_right _ _)
  have hrun := cosetFftInPlace_run c s hrate (size_padZeros hle) Element.generator
    (some rateBits.toNat) (Nat.le_add_left rateBits.toNat k)
  -- The coefficients that the zero factor leaves out are the padding.
  have hpadding : spectrum (k + rateBits.toNat)
      (leading (2 ^ (k + rateBits.toNat - (some rateBits.toNat).getD 0)) fun i =>
        entry (padZeros (2 ^ (k + rateBits.toNat)) coefficients) i * Element.generator ^ i) =
      extension (k + rateBits.toNat) coefficients := by
    have hcount : k + rateBits.toNat - (some rateBits.toNat).getD 0 = k :=
      Nat.add_sub_cancel k rateBits.toNat
    have hentries : entry (padZeros (2 ^ (k + rateBits.toNat)) coefficients) = entry coefficients :=
      funext (entry_padZeros _ coefficients)
    rw [hcount, hentries]
    refine spectrum_congr (fun t _ => ?_)
    unfold leading
    split
    · rfl
    · rw [entry_of_le (by omega), zero_mul]
  rw [hpadding] at hrun
  have hdomain : domainLog2 coefficients.size = .ok k := by
    rw [hsize, domainLog2_two_pow (by omega)]
  unfold lde
  rw [hdomain]
  show (do
    let extendedLog2 ← (liftM (Checked.add (UInt64.ofNat k) rateBits) :
      Except TransformError UInt64)
    _) = _
  rw [hadd]
  show (if maxLog2Size < (UInt64.ofNat (k + rateBits.toNat)).toNat then _ else _) = _
  rw [hextended, if_neg (not_maxLog2Size_lt hrate), hlength]
  exact OnBuffer.apply_of_ok hrun

/-- The coefficients, as many as there are values, of a polynomial that takes
    the values at the powers of `ω`. -/
def Interpolates (ω : Element) (n : Nat) (values coefficients : Array Element) : Prop :=
  coefficients.size = n ∧ EvaluatesAt ω n coefficients values

theorem interpolates_iff {values : Array Element} (hk : k ≤ 32) (hsize : values.size = 2 ^ k) :
    Interpolates (unityRoot k) (2 ^ k) values coefficients ↔
      coefficients = interpolation k (entry values) := by
  constructor
  · rintro ⟨hcount, _, hvalues⟩
    -- What takes the values has them as its spectrum, and so is what belongs to it.
    have hspectrum : spectrum k (entry coefficients) = values := by
      refine ext_entry ((size_spectrum k _).trans hsize.symm) (fun i hi => ?_)
      rw [size_spectrum] at hi
      have hlt : i < values.size := by rwa [hsize]
      rw [entry_spectrum _ hi, entry_of_lt hlt, hvalues i hlt,
        Polynomial.eval_eq_sum (Nat.le_of_eq hcount)]
      rfl
    rw [← hspectrum, interpolation_spectrum hk hcount]
  · rintro rfl
    -- The interpolation takes the values, since its spectrum is made of them.
    have hback := evaluatesAt_spectrum (Nat.le_of_eq (size_interpolation k (entry values)))
    rw [spectrum_interpolation hk hsize] at hback
    exact ⟨size_interpolation k _, hback⟩

end TraceCommit
