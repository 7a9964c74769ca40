import TraceCommit.Proofs.Transform.Forward
import TraceCommit.Transform.Inverse

/-!
# Interpolation Undoes Evaluation

The inverse transform runs the forward one again, reflects the result and
divides by the number of inputs. The forward transform applied twice gives the
inputs back, each `2 ^ k` times and in reflected order, and the field has an
inverse of `2 ^ k`, so that is an inverse on both sides. Over a coset the powers
of the shift are multiplied with before and divided out after.

## Main definitions

* `interpolation`: The coefficients that belong to values over the domain.

## Theorems

* `ifft_eq`: What the inverse transform computes.
* `interpolation_spectrum`, `spectrum_interpolation`: The two are inverse.
* `ifft_inverts_fft`: So are the transforms, over the domain and its cosets.
-/

namespace TraceCommit

open Finset

/-- Reversing all but the first entry is reflection. -/
theorem entry_reverseTail {values : Array Element} {i : Nat} (h : i < values.size) :
    entry (reverseTail values) i = entry values (reflect values.size i) := by
  have hhead : (values.extract 0 1).size = 1 := by
    rw [Array.size_extract]
    omega
  unfold reverseTail
  rcases Nat.eq_zero_or_pos i with rfl | hpos
  · rw [reflect_zero, entry_append_left (by omega), entry_extract (by omega)]
  · have htail : (values.extract 1).size = values.size - 1 := by
      rw [Array.size_extract, Nat.min_self]
    -- Place `i` is place `i - 1` of the tail, and reversed it is counted from the end.
    have hplace : (values.extract 1).size - 1 - (i - 1) = values.size - 1 - i := by omega
    have hlt : values.size - 1 - i < (values.extract 1).size := by omega
    have hback : 1 + (values.size - 1 - i) = values.size - i := by omega
    rw [entry_append_right (by omega), hhead, reflect_of_pos hpos h,
      entry_of_lt (by rw [Array.size_reverse]; omega), Array.getElem_reverse]
    simp only [hplace]
    rw [← entry_of_lt hlt, entry_extract (by omega), hback]

theorem size_reverseTail (values : Array Element) : (reverseTail values).size = values.size := by
  unfold reverseTail
  rw [Array.size_append, Array.size_reverse, Array.size_extract, Array.size_extract]
  omega

/-- The coefficients that belong to values over the domain of `2 ^ k` points. -/
noncomputable def interpolation (k : Nat) (x : Nat → Element) : Array Element :=
  Array.ofFn fun i : Fin (2 ^ k) =>
    transformSum (unityRoot k) (2 ^ k) x (reflect (2 ^ k) i.val) * ((2 ^ k : Nat) : Element)⁻¹

theorem size_interpolation (k : Nat) (x : Nat → Element) : (interpolation k x).size = 2 ^ k :=
  Array.size_ofFn

theorem entry_interpolation {k i : Nat} (x : Nat → Element) (h : i < 2 ^ k) :
    entry (interpolation k x) i =
      transformSum (unityRoot k) (2 ^ k) x (reflect (2 ^ k) i) * ((2 ^ k : Nat) : Element)⁻¹ :=
  entry_ofFn (fun i => transformSum (unityRoot k) (2 ^ k) x (reflect (2 ^ k) i) *
    ((2 ^ k : Nat) : Element)⁻¹) h

variable {k : Nat} {values : Array Element}

/-- Interpolating what has been evaluated gives the coefficients back. -/
theorem interpolation_spectrum (hk : k ≤ 32) (hsize : values.size = 2 ^ k) :
    interpolation k (entry (spectrum k (entry values))) = values := by
  refine ext_entry ?_ (fun i hi => ?_)
  · rw [size_interpolation, hsize]
  · rw [size_interpolation] at hi
    -- Transformed twice the entry is reflected, and so it is read at the reflection.
    rw [entry_interpolation _ hi, transformSum_congr (fun t ht => entry_spectrum _ ht),
      transformSum_transformSum (unityRoot_isPrimitiveRoot hk) _ (reflect_lt hi),
      reflect_reflect hi, mul_comm, inv_mul_cancel_left₀ (Element.two_pow_ne_zero k)]

/-- A common factor of all inputs is a factor of the value. -/
theorem transformSum_mul_right (ω : Element) (n : Nat) (x : Nat → Element) (a : Element)
    (j : Nat) : transformSum ω n (fun t => x t * a) j = transformSum ω n x j * a := by
  unfold transformSum
  rw [sum_mul]
  refine sum_congr rfl (fun t _ => ?_)
  rw [mul_right_comm]

/-- Evaluating what has been interpolated gives the values back. -/
theorem spectrum_interpolation (hk : k ≤ 32) (hsize : values.size = 2 ^ k) :
    spectrum k (entry (interpolation k (entry values))) = values := by
  have horder : unityRoot k ^ 2 ^ k = 1 := unityRoot_pow_order hk
  refine ext_entry ?_ (fun j hj => ?_)
  · rw [size_spectrum, hsize]
  · rw [size_spectrum] at hj
    -- The coefficients are reflected, which reflects their values.
    rw [entry_spectrum _ hj, transformSum_congr (fun t ht => entry_interpolation _ ht),
      transformSum_mul_right, transformSum_reflect horder _ hj,
      transformSum_transformSum (unityRoot_isPrimitiveRoot hk) _ (reflect_lt hj),
      reflect_reflect hj, mul_comm, inv_mul_cancel_left₀ (Element.two_pow_ne_zero k)]

variable (c : Capability) (s : Schedule)

theorem scale_eq (values : Array Element) (a : Element) :
    (Kernels.of c).scale values a = values.map (· * a) := by
  rw [Kernels.of_eq]
  rfl

/-- The number of inputs has an inverse in the field. -/
theorem sizeInverse_eq (hk : k ≤ 32) :
    (Element.ofWord (UInt64.ofNat (2 ^ k))).inverse = .ok ((2 ^ k : Nat) : Element)⁻¹ := by
  have hword : 2 ^ k < UInt64.size :=
    Nat.pow_lt_pow_right (by omega : 1 < 2) (by omega : k < 64)
  rw [Element.ofWord_eq, UInt64.toNat_ofNat_of_lt' hword, Element.inverse_eq,
    if_neg (Element.two_pow_ne_zero k)]

theorem ifftInPlace_run (hk : k ≤ 32) (hsize : values.size = 2 ^ k) :
    (ifftInPlace ⟨.of c, s⟩).run values = .ok () (interpolation k (entry values)) := by
  have hdomain : domainLog2 values.size = .ok k := by rw [hsize, domainLog2_two_pow hk]
  have htransform := fftInPlace_none_run c s hk hsize
    (fun t ht => absurd ht (Option.not_mem_none t))
  have hreflected : (reverseTail (spectrum k (entry values))).size = 2 ^ k := by
    rw [size_reverseTail, size_spectrum]
  -- Reflected and divided, the values of the values are the coefficients.
  have hscale : (do
      let sizeInverse ← (Element.ofWord
        (UInt64.ofNat (reverseTail (spectrum k (entry values))).size)).inverse
      return (Kernels.of c).scale (reverseTail (spectrum k (entry values))) sizeInverse :
        Except TransformError (Array Element)) = .ok (interpolation k (entry values)) := by
    rw [hreflected, sizeInverse_eq hk]
    show Except.ok ((Kernels.of c).scale (reverseTail (spectrum k (entry values))) _) = _
    rw [scale_eq, Except.ok.injEq]
    refine ext_entry ?_ (fun i hi => ?_)
    · rw [Array.size_map, hreflected, size_interpolation]
    · have hlt : i < 2 ^ k := by rwa [Array.size_map, hreflected] at hi
      rw [entry_of_lt hi, Array.getElem_map, ← entry_of_lt (by rwa [hreflected]),
        entry_reverseTail (by rwa [size_spectrum]), size_spectrum,
        entry_spectrum _ (reflect_lt hlt), entry_interpolation _ hlt]
  unfold ifftInPlace
  rw [run_domainLog2_of_ok hdomain, OnBuffer.run_bind_of_ok htransform,
    OnBuffer.run_bind_of_ok (EStateM.run_modify _ _)]
  exact OnBuffer.run_replace_of_ok hscale

/-- The transforms on copies. -/
theorem fft_eq (hk : k ≤ 32) (hsize : values.size = 2 ^ k) :
    fft ⟨.of c, s⟩ values = .ok (spectrum k (entry values)) :=
  OnBuffer.apply_of_ok
    (fftInPlace_none_run c s hk hsize (fun t ht => absurd ht (Option.not_mem_none t)))

theorem ifft_eq (hk : k ≤ 32) (hsize : values.size = 2 ^ k) :
    ifft ⟨.of c, s⟩ values = .ok (interpolation k (entry values)) :=
  OnBuffer.apply_of_ok (ifftInPlace_run c s hk hsize)

theorem cosetFft_eq (hk : k ≤ 32) (hsize : values.size = 2 ^ k) (shift : Element) :
    cosetFft ⟨.of c, s⟩ values shift = .ok (spectrum k (entry (scaled shift values))) := by
  have hentries : entry (scaled shift values) = fun i => entry values i * shift ^ i :=
    funext (entry_scaled shift values)
  rw [hentries]
  exact OnBuffer.apply_of_ok (cosetFftInPlace_none_run c s hk hsize shift)

theorem cosetIfft_eq (hk : k ≤ 32) (hsize : values.size = 2 ^ k) {shift : Element}
    (hshift : shift ≠ 0) : cosetIfft ⟨.of c, s⟩ values shift =
      .ok (scaled shift⁻¹ (interpolation k (entry values))) := by
  unfold cosetIfft
  rw [ifft_eq c s hk hsize, Element.inverse_eq, if_neg hshift]
  show (liftM (scaleByPowers (.of c) shift⁻¹ (interpolation k (entry values))) :
    Except TransformError (Array Element)) = _
  rw [scaleByPowers_eq]
  rfl

/-- Scaling by the powers of the inverse undoes scaling. -/
theorem scaled_inv_scaled {shift : Element} (hshift : shift ≠ 0) (values : Array Element) :
    scaled shift⁻¹ (scaled shift values) = values := by
  refine ext_entry ?_ (fun i _ => ?_)
  · rw [size_scaled, size_scaled]
  · rw [entry_scaled, entry_scaled, inv_pow, mul_inv_cancel_right₀ (pow_ne_zero i hshift)]

/-- Interpolation undoes evaluation and evaluation undoes interpolation, over the
    domain and over every coset of it, exactly. -/
theorem ifft_inverts_fft (c c' : Capability) (s s' : Schedule) (hk : k ≤ 32)
    (values : Array Element) (hsize : values.size = 2 ^ k) :
    (fft ⟨.of c, s⟩ values >>= ifft ⟨.of c', s'⟩) = .ok values ∧
      (ifft ⟨.of c, s⟩ values >>= fft ⟨.of c', s'⟩) = .ok values ∧
      ∀ shift, shift ≠ 0 →
        (cosetFft ⟨.of c, s⟩ values shift >>= (cosetIfft ⟨.of c', s'⟩ · shift)) = .ok values ∧
        (cosetIfft ⟨.of c, s⟩ values shift >>= (cosetFft ⟨.of c', s'⟩ · shift)) = .ok values := by
  refine ⟨?_, ?_, fun shift hshift => ⟨?_, ?_⟩⟩
  · rw [fft_eq c s hk hsize]
    show ifft ⟨.of c', s'⟩ (spectrum k (entry values)) = _
    rw [ifft_eq c' s' hk (size_spectrum k _), interpolation_spectrum hk hsize]
  · rw [ifft_eq c s hk hsize]
    show fft ⟨.of c', s'⟩ (interpolation k (entry values)) = _
    rw [fft_eq c' s' hk (size_interpolation k _), spectrum_interpolation hk hsize]
  · -- Over a coset the inner pair cancels, which leaves the scaling and its inverse.
    have hscaled := (size_scaled shift values).trans hsize
    rw [cosetFft_eq c s hk hsize]
    show cosetIfft ⟨.of c', s'⟩ (spectrum k (entry (scaled shift values))) shift = _
    rw [cosetIfft_eq c' s' hk (size_spectrum k _) hshift, interpolation_spectrum hk hscaled,
      scaled_inv_scaled hshift]
  · -- The other way round the scalings meet in the middle and cancel first.
    have hback := scaled_inv_scaled (inv_ne_zero hshift) (interpolation k (entry values))
    rw [inv_inv] at hback
    rw [cosetIfft_eq c s hk hsize hshift]
    show cosetFft ⟨.of c', s'⟩ (scaled shift⁻¹ (interpolation k (entry values))) shift = _
    rw [cosetFft_eq c' s' hk ((size_scaled _ _).trans (size_interpolation k _)), hback,
      spectrum_interpolation hk hsize]

/-- Four values, there and back, over the domain and over the coset of the
    generator. -/
theorem ifft_inverts_fft_four :
    (fft ⟨.of .avx2, .backward 2⟩ #[1, 0, Element.two, 1] >>=
      ifft ⟨.of .scalar, .sequential⟩) = .ok #[1, 0, Element.two, 1] ∧
    (cosetFft ⟨.of .avx2, .backward 2⟩ #[1, 0, Element.two, 1] Element.generator >>=
      (cosetIfft ⟨.of .scalar, .sequential⟩ · Element.generator)) =
        .ok #[1, 0, Element.two, 1] := by
  rcases ifft_inverts_fft .avx2 .scalar (.backward 2) .sequential (by decide : 2 ≤ 32)
    #[1, 0, Element.two, 1] rfl with ⟨hplain, _, hcoset⟩
  exact ⟨hplain, (hcoset Element.generator (by decide)).1⟩

end TraceCommit
