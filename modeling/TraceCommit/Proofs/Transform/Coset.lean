import TraceCommit.Proofs.Polynomial
import TraceCommit.Proofs.Transform.Extension

/-!
# The Extension on the Generator's Coset

An extension pads the coefficients with zeros and evaluates on the coset, and it
takes a short cut on the way: only the leading block is scaled, and the layers
that the padding makes trivial are copies. The long way round, padding first and
evaluating then as any polynomial is evaluated, gives the same values, and
interpolating these gives the padded coefficients back. So nothing about the
polynomial is lost or added.

## Main definitions

* `EvaluatesOnCoset`: The values are those of a polynomial on a coset.

## Theorems

* `Polynomial.extended_eq`: What explicit padding makes of coefficients.
* `extension_eq_spectrum`: An extension is the spectrum of padded coefficients.
* `lde_evaluates_on_coset`: Extensions hold the values on the coset.
-/

namespace TraceCommit

variable {k : Nat} {coefficients : Array Element}

/-- The `n` values are those of a polynomial at the points `shift * ω ^ i`. -/
def EvaluatesOnCoset (shift ω : Element) (n : Nat) (coefficients values : Array Element) : Prop :=
  values.size = n ∧
    ∀ i (h : i < values.size), values[i] = (Polynomial.mk coefficients).eval (shift * ω ^ i)

theorem evaluatesOnCoset_extension (hsize : coefficients.size ≤ 2 ^ k) :
    EvaluatesOnCoset Element.generator (unityRoot k) (2 ^ k) coefficients
      (extension k coefficients) := by
  refine ⟨size_extension k coefficients, fun i hi => ?_⟩
  rw [← entry_of_lt hi, entry_extension hsize (by rwa [size_extension] at hi)]

/-- Padding by a rate that the field has room for succeeds: neither the shifted
    length nor the memory for it overflows. -/
theorem Polynomial.extended_eq (hsize : coefficients.size = 2 ^ k) {rateBits : UInt64}
    (hrate : k + rateBits.toNat ≤ 32) : (Polynomial.mk coefficients).extended rateBits =
      .ok ⟨padZeros (2 ^ (k + rateBits.toNat)) coefficients⟩ := by
  have hcount : (Polynomial.mk coefficients).extendedLength rateBits =
      2 ^ (k + rateBits.toNat) := by
    unfold Polynomial.extendedLength Polynomial.length
    rw [hsize, ← pow_add]
  have hmost : 2 ^ (k + rateBits.toNat) ≤ 2 ^ 32 := Nat.pow_le_pow_right Nat.two_pos hrate
  have hfits : (Polynomial.mk coefficients).extendedLength rateBits < UInt64.size := by
    rw [hcount]
    exact Nat.lt_of_le_of_lt hmost (by decide)
  rw [← hcount]
  refine Polynomial.extended_eq_of_paddingEnds (.padded (by omega) ?_ hfits
    (Polynomial.extendsTo_padZeros (Polynomial.length_le_extendedLength _ rateBits)))
  rw [(Polynomial.extract_keptLength hfits).1, hcount]
  unfold Element.byteCount maxSequenceBytes
  omega

/-- An extension is the spectrum of the padded coefficients, all of them scaled. -/
theorem extension_eq_spectrum (k : Nat) (coefficients : Array Element) :
    extension k coefficients =
      spectrum k (entry (scaled Element.generator (padZeros (2 ^ k) coefficients))) := by
  have hentries : entry (scaled Element.generator (padZeros (2 ^ k) coefficients)) =
      fun i => entry coefficients i * Element.generator ^ i := by
    funext i
    rw [entry_scaled, entry_padZeros]
  rw [hentries]
  rfl

variable (c : Capability) (s : Schedule)

/-- Padded coefficients are evaluated to the extension. -/
theorem cosetFft_padZeros (hk : k ≤ 32) (hsize : coefficients.size ≤ 2 ^ k) :
    cosetFft ⟨.of c, s⟩ (padZeros (2 ^ k) coefficients) Element.generator =
      .ok (extension k coefficients) := by
  rw [cosetFft_eq c s hk (size_padZeros hsize), ← extension_eq_spectrum]

/-- The extension is interpolated to the padded coefficients. -/
theorem cosetIfft_extension (hk : k ≤ 32) (hsize : coefficients.size ≤ 2 ^ k) :
    cosetIfft ⟨.of c, s⟩ (extension k coefficients) Element.generator =
      .ok (padZeros (2 ^ k) coefficients) := by
  have hshift : Element.generator ≠ 0 := by decide
  have hscaled : (scaled Element.generator (padZeros (2 ^ k) coefficients)).size = 2 ^ k :=
    (size_scaled _ _).trans (size_padZeros hsize)
  rw [cosetIfft_eq c s hk (size_extension k coefficients) hshift, extension_eq_spectrum,
    interpolation_spectrum hk hscaled, scaled_inv_scaled hshift]

/-- Values of a usable number are extended as the coefficients that they are
    interpolated to. -/
theorem ldeOntoCoset_eq_map {values : Array Element} (hk : k ≤ 32) (hsize : values.size = 2 ^ k)
    (rateBits : UInt64) : (Evaluations.mk values).ldeOntoCoset ⟨.of c, s⟩ rateBits =
      Evaluations.mk <$> lde ⟨.of c, s⟩ (interpolation k (entry values)) rateBits := by
  unfold Evaluations.ldeOntoCoset Evaluations.ifft
  rw [ifft_eq c s hk hsize]
  rfl

/-- Values over the domain are extended to those of the polynomial through them. -/
theorem ldeOntoCoset_eq {values : Array Element} (hsize : values.size = 2 ^ k)
    {rateBits : UInt64} (hrate : k + rateBits.toNat ≤ 32) :
    (Evaluations.mk values).ldeOntoCoset ⟨.of c, s⟩ rateBits =
      .ok ⟨extension (k + rateBits.toNat) (interpolation k (entry values))⟩ := by
  rw [ldeOntoCoset_eq_map c s (by omega) hsize, lde_eq c s (size_interpolation k _) hrate]
  rfl

/-- An extension holds the values of the polynomial on the generator's coset. It
    is what padding with zeros and evaluating on the coset gives, and it is
    interpolated to the coefficients with zeros behind them. From values over the
    domain the extension is that of the one polynomial through them. -/
theorem lde_evaluates_on_coset (c c' : Capability) (s s' : Schedule) {rateBits : UInt64}
    (hrate : k + rateBits.toNat ≤ 32) :
    ∃ ω ω', Element.rootOfUnity k = .ok ω ∧ Element.rootOfUnity (k + rateBits.toNat) = .ok ω' ∧
      (∀ coefficients : Array Element, coefficients.size = 2 ^ k →
        ∃ values padded, lde ⟨.of c, s⟩ coefficients rateBits = .ok values ∧
          EvaluatesOnCoset Element.generator ω' (2 ^ (k + rateBits.toNat)) coefficients values ∧
          (Polynomial.mk coefficients).extended rateBits = .ok padded ∧
          padded.coefficients = coefficients ++
            Array.replicate (2 ^ (k + rateBits.toNat) - 2 ^ k) 0 ∧
          padded.cosetFft ⟨.of c', s'⟩ Element.generator = .ok ⟨values⟩ ∧
          (Evaluations.mk values).cosetIfft ⟨.of c', s'⟩ Element.generator = .ok padded) ∧
      (∀ values : Array Element, values.size = 2 ^ k →
        ∃ coefficients extended,
          (∀ candidate, Interpolates ω (2 ^ k) values candidate ↔ candidate = coefficients) ∧
          (Evaluations.mk values).ldeOntoCoset ⟨.of c, s⟩ rateBits = .ok ⟨extended⟩ ∧
          EvaluatesOnCoset Element.generator ω' (2 ^ (k + rateBits.toNat)) coefficients
            extended) := by
  have hk : k ≤ 32 := by omega
  have hle : 2 ^ k ≤ 2 ^ (k + rateBits.toNat) :=
    Nat.pow_le_pow_right Nat.two_pos (Nat.le_add_right k rateBits.toNat)
  refine ⟨unityRoot k, unityRoot (k + rateBits.toNat), Element.rootOfUnity_eq hk,
    Element.rootOfUnity_eq hrate, ?_, ?_⟩
  · intro coefficients hsize
    have hfits : coefficients.size ≤ 2 ^ (k + rateBits.toNat) := by rwa [hsize]
    refine ⟨extension (k + rateBits.toNat) coefficients, ⟨padZeros _ coefficients⟩,
      lde_eq c s hsize hrate, evaluatesOnCoset_extension hfits,
      Polynomial.extended_eq hsize hrate, ?_, ?_, ?_⟩
    · unfold padZeros
      rw [hsize]
    · unfold Polynomial.cosetFft
      rw [cosetFft_padZeros c' s' hrate hfits]
      rfl
    · unfold Evaluations.cosetIfft
      rw [cosetIfft_extension c' s' hrate hfits]
      rfl
  · intro values hsize
    refine ⟨interpolation k (entry values), _, fun candidate => interpolates_iff hk hsize,
      ldeOntoCoset_eq c s hsize hrate, evaluatesOnCoset_extension ?_⟩
    rwa [size_interpolation]

/-- Two coefficients, and two values, extended to four values on the coset. -/
theorem lde_evaluates_on_coset_two : ∃ ω ω' values coefficients extended,
    Element.rootOfUnity 1 = .ok ω ∧ Element.rootOfUnity 2 = .ok ω' ∧
      lde ⟨.of .avx2, .backward 2⟩ #[1, Element.two] 1 = .ok values ∧
      EvaluatesOnCoset Element.generator ω' 4 #[1, Element.two] values ∧
      (Evaluations.mk values).cosetIfft ⟨.of .scalar, .sequential⟩ Element.generator =
        .ok ⟨#[1, Element.two, 0, 0]⟩ ∧
      Interpolates ω 2 #[Element.two, 1] coefficients ∧
      (Evaluations.mk #[Element.two, 1]).ldeOntoCoset ⟨.of .avx2, .backward 2⟩ 1 =
        .ok ⟨extended⟩ ∧
      EvaluatesOnCoset Element.generator ω' 4 coefficients extended := by
  rcases lde_evaluates_on_coset .avx2 .scalar (.backward 2) .sequential
    (by decide : 1 + (1 : UInt64).toNat ≤ 32) with ⟨ω, ω', hω, hω', hextend, hontoCoset⟩
  rcases hextend #[1, Element.two] rfl with ⟨values, ⟨_⟩, hlde, hvalues, _, rfl, _, hback⟩
  rcases hontoCoset #[Element.two, 1] rfl with ⟨coefficients, extended, hunique, hrun, hextended⟩
  exact ⟨ω, ω', values, coefficients, extended, hω, hω', hlde, hvalues, hback,
    (hunique coefficients).mpr rfl, hrun, hextended⟩

end TraceCommit
