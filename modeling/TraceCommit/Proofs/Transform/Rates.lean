import TraceCommit.Proofs.Transform.Coset
import TraceCommit.Proofs.Transform.Refusal

/-!
# Which Rates an Extension Takes

A rate is any word. An extension of `2 ^ k` inputs adds it to `k`, asks whether
the field has room for the sum, and only then shifts the length by it, so that
nothing wraps: a rate that passes is at most 32, and the shifted length is at most
`2 ^ 32`.

The sum itself is of words. Where the rate is within `k` of the largest word it
does not fit, and the extension breaks off with an overflow instead of naming the
domain as too large. No other input does that.

## Main definitions

* `ExtensionOutcome`: How an extension ends, by its inputs' number and the rate.

## Theorems

* `ExtensionOutcome.of_two_pow`: A power of two, case by case.
* `lde_outcome_of_two_pow`: What becomes of it.
* `lde_outcomes`: The ends of both extensions.
* `lde_rate_overflows`: Two inputs and the largest rate.
-/

namespace TraceCommit

/-- How the extension of `size` inputs ends: refused for their number, refused for
    the number of points, broken off, or with all values. -/
structure ExtensionOutcome (size : Nat) (rateBits : UInt64)
    (result : Except TransformError (Array Element)) : Prop where
  invalid : result = .error (.invalidDomainSize size) ↔ ¬ ∃ k, size = 2 ^ k
  tooLarge : (∃ log2Size, result = .error (.domainTooLarge log2Size maxLog2Size)) ↔
    ∃ k, size = 2 ^ k ∧ 32 < k + rateBits.toNat ∧ (k ≤ 32 → k + rateBits.toNat < UInt64.size)
  overflow : result = .error (.violation .overflow) ↔
    ∃ k, size = 2 ^ k ∧ k ≤ 32 ∧ UInt64.size ≤ k + rateBits.toNat
  extended : (∃ values, result = .ok values ∧ values.size = size * 2 ^ rateBits.toNat) ↔
    ∃ k, size = 2 ^ k ∧ k + rateBits.toNat ≤ 32

namespace ExtensionOutcome

variable {rateBits : UInt64} {result : Except TransformError (Array Element)}

theorem of_not_two_pow {size : Nat} (h : ¬ ∃ k, size = 2 ^ k)
    (hresult : result = .error (.invalidDomainSize size)) :
    ExtensionOutcome size rateBits result := by
  subst hresult
  have hnone (p : Nat → Prop) : ¬ ∃ k, size = 2 ^ k ∧ p k := fun ⟨k, hk, _⟩ => h ⟨k, hk⟩
  refine ⟨iff_of_true rfl h, iff_of_false ?_ (hnone _), iff_of_false ?_ (hnone _),
    iff_of_false ?_ (hnone _)⟩
  · rintro ⟨_, ⟨⟩⟩
  · rintro ⟨⟩
  · rintro ⟨_, ⟨⟩, _⟩

/-- For a power of two the three other ends exclude each other and leave nothing
    out, so it is enough to know when each of them comes. -/
theorem of_two_pow {k : Nat}
    (hlarge : 32 < k + rateBits.toNat → (k ≤ 32 → k + rateBits.toNat < UInt64.size) →
      ∃ log2Size, result = .error (.domainTooLarge log2Size maxLog2Size))
    (hoverflow : k ≤ 32 → UInt64.size ≤ k + rateBits.toNat →
      result = .error (.violation .overflow))
    (hextended : k + rateBits.toNat ≤ 32 →
      ∃ values, result = .ok values ∧ values.size = 2 ^ k * 2 ^ rateBits.toNat) :
    ExtensionOutcome (2 ^ k) rateBits result := by
  have hsize : UInt64.size = 18446744073709551616 := rfl
  have hpower : ∃ j, 2 ^ k = 2 ^ j := ⟨k, rfl⟩
  have hexponent (p : Nat → Prop) : (∃ j, 2 ^ k = 2 ^ j ∧ p j) ↔ p k := by
    constructor
    · rintro ⟨j, hj, hp⟩
      rwa [Nat.pow_right_injective (le_refl 2) hj]
    · exact fun hp => ⟨k, rfl, hp⟩
  rcases Nat.lt_or_ge 32 (k + rateBits.toNat) with hrate | hrate
  · by_cases hfits : k ≤ 32 → k + rateBits.toNat < UInt64.size
    · rcases hlarge hrate hfits with ⟨log2Size, rfl⟩
      refine ⟨iff_of_false nofun (not_not_intro hpower), iff_of_true ⟨_, rfl⟩ ?_,
        iff_of_false nofun ?_, iff_of_false nofun ?_⟩
      · exact (hexponent _).mpr ⟨hrate, hfits⟩
      · rw [hexponent]
        omega
      · rw [hexponent]
        omega
    · rw [hoverflow (by omega) (by omega)]
      refine ⟨iff_of_false nofun (not_not_intro hpower), iff_of_false nofun ?_,
        iff_of_true rfl ?_, iff_of_false nofun ?_⟩
      · rw [hexponent]
        exact fun h => hfits h.2
      · rw [hexponent]
        omega
      · rw [hexponent]
        omega
  · rcases hextended hrate with ⟨values, rfl, hvalues⟩
    refine ⟨iff_of_false nofun (not_not_intro hpower), iff_of_false nofun ?_,
      iff_of_false nofun ?_, iff_of_true ⟨values, rfl, hvalues⟩ ?_⟩
    · rw [hexponent]
      omega
    · rw [hexponent]
      omega
    · rwa [hexponent]

end ExtensionOutcome

variable (c : Capability) (s : Schedule) {k : Nat} {values : Array Element}

/-- What becomes of a power of two of inputs. -/
theorem lde_outcome_of_two_pow (hsize : values.size = 2 ^ k) (rateBits : UInt64) :
    ExtensionOutcome (2 ^ k) rateBits (lde ⟨.of c, s⟩ values rateBits) := by
  refine .of_two_pow (fun hrate hfits => ?_) (fun hk hrate => lde_of_overflow _ hk hsize hrate)
    (fun hrate => ?_)
  · by_cases hk : k ≤ 32
    · exact ⟨_, lde_of_large _ hk hsize hrate (hfits hk)⟩
    · have hdomain := domainLog2_of_large (Nat.lt_of_not_le hk)
      exact ⟨_, lde_of_refused _ (hsize ▸ hdomain) rateBits⟩
  · exact ⟨_, lde_eq c s hsize hrate, by rw [size_extension, pow_add]⟩

theorem ldeOntoCoset_of_refused (e : Engine) {error : TransformError}
    (h : domainLog2 values.size = .error error) (rateBits : UInt64) :
    (Evaluations.mk values).ldeOntoCoset e rateBits = .error error := by
  unfold Evaluations.ldeOntoCoset Evaluations.ifft
  rw [ifft_of_refused e h]
  rfl

/-- Coefficients, and values that are interpolated first, are refused for their
    number exactly if it is no power of two. A power of two is extended exactly if
    the two logarithms come to no more than 32, and is otherwise refused as too
    large, except that a sum of logarithms that fits no word is an overflow. -/
theorem lde_outcomes (values : Array Element) (rateBits : UInt64) :
    ExtensionOutcome values.size rateBits (lde ⟨.of c, s⟩ values rateBits) ∧
      ExtensionOutcome values.size rateBits
        (Evaluations.values <$> (Evaluations.mk values).ldeOntoCoset ⟨.of c, s⟩ rateBits) := by
  by_cases hpower : ∃ k, values.size = 2 ^ k
  · rcases hpower with ⟨k, hsize⟩
    rw [hsize]
    refine ⟨lde_outcome_of_two_pow c s hsize rateBits, ?_⟩
    by_cases hk : k ≤ 32
    · have hsame : Evaluations.values <$> Evaluations.mk <$>
          lde ⟨.of c, s⟩ (interpolation k (entry values)) rateBits =
            lde ⟨.of c, s⟩ (interpolation k (entry values)) rateBits := by
        rw [← comp_map]
        exact id_map _
      rw [ldeOntoCoset_eq_map c s hk hsize, hsame]
      exact lde_outcome_of_two_pow c s (size_interpolation k _) rateBits
    · have hdomain := domainLog2_of_large (Nat.lt_of_not_le hk)
      rw [ldeOntoCoset_of_refused _ (hsize ▸ hdomain)]
      refine .of_two_pow (fun _ _ => ⟨_, rfl⟩) (fun h => absurd h hk) (fun hrate => ?_)
      exact absurd (Nat.le_trans (Nat.le_add_right k _) hrate) hk
  · have hdomain := domainLog2_of_not_two_pow hpower
    refine ⟨.of_not_two_pow hpower (lde_of_refused _ hdomain rateBits), ?_⟩
    rw [ldeOntoCoset_of_refused _ hdomain]
    exact .of_not_two_pow hpower rfl

/-- Two inputs and the largest rate: their logarithms come to more than 32, and
    the extension breaks off instead of refusing the domain as too large. -/
theorem lde_rate_overflows :
    32 < 1 + (18446744073709551615 : UInt64).toNat ∧
      lde ⟨.of .scalar, .sequential⟩ #[1, Element.two] 18446744073709551615 =
        .error (.violation .overflow) ∧
      (Evaluations.mk #[1, Element.two]).ldeOntoCoset ⟨.of .scalar, .sequential⟩
        18446744073709551615 = .error (.violation .overflow) := by
  refine ⟨by decide, ?_, ?_⟩
  · exact lde_of_overflow _ (by decide : 1 ≤ 32) rfl (by decide)
  · rw [ldeOntoCoset_eq_map .scalar .sequential (by decide : 1 ≤ 32) rfl,
      lde_of_overflow _ (by decide : 1 ≤ 32) (size_interpolation 1 _) (by decide)]
    rfl

end TraceCommit
