import TraceCommit.Proofs.Transform.Extension

/-!
# When Transforms Are Refused

Before a transform touches its input it asks whether the length is usable, and
an extension asks whether the field has room for it. Nothing later on can fail.
The engine has no part in either question, so a refusal has a reason that
depends on the length and the rate alone.

## Theorems

* `run_domainLog2_of_error`: Nothing is written before the length is looked at.
* `fft_of_refused`, `ifft_of_refused`, `lde_of_refused`: A length that is not
  usable.
* `lde_of_overflow`, `lde_of_large`: Rates that the field has no room for.
* `ifft_ok_or_refused`: Interpolations of one length succeed or fail alike.
* `lde_ok_or_refused`: So do extensions of one length by one rate.
* `interpolateColumns_of_refused`, `ldeBatch_of_refused`: Columns that all fail.
-/

namespace TraceCommit

namespace OnBuffer

variable {α β : Type} {before after : Array Element} {error : TransformError}

/-- What follows a refused action is not carried out. -/
theorem run_bind_of_error {action : OnBuffer α} {next : α → OnBuffer β}
    (h : action.run before = .error error after) :
    (action >>= next).run before = .error error after := by
  refine (EStateM.run_bind action next).trans ?_
  rw [h]

theorem run_lift_of_error {x : Except TransformError α} (h : x = .error error) :
    (liftM x : OnBuffer α).run before = .error error before := by
  subst h
  rfl

theorem apply_of_error {action : OnBuffer Unit} (h : action.run before = .error error after) :
    action.apply before = .error error := by
  unfold apply
  rw [h]

end OnBuffer

variable (e : Engine) {values : Array Element} {error : TransformError}

/-- A length that is not usable is found before anything else is done. -/
theorem run_domainLog2_of_error (h : domainLog2 values.size = .error error)
    (next : Nat → OnBuffer Unit) :
    (do next (← domainLog2 (← get).size) : OnBuffer Unit).run values = .error error values := by
  rw [OnBuffer.run_bind_of_ok (EStateM.run_get values)]
  exact OnBuffer.run_bind_of_error (OnBuffer.run_lift_of_error h)

theorem fftInPlace_run_of_refused (h : domainLog2 values.size = .error error)
    (zeroFactor : Option Nat) (table : Option RootTable) :
    (fftInPlace e zeroFactor table).run values = .error error values :=
  run_domainLog2_of_error h _

theorem fft_of_refused (h : domainLog2 values.size = .error error) :
    fft e values = .error error :=
  OnBuffer.apply_of_error (fftInPlace_run_of_refused e h none none)

theorem ifftInPlace_run_of_refused (h : domainLog2 values.size = .error error) :
    (ifftInPlace e).run values = .error error values :=
  run_domainLog2_of_error h _

theorem ifft_of_refused (h : domainLog2 values.size = .error error) :
    ifft e values = .error error :=
  OnBuffer.apply_of_error (ifftInPlace_run_of_refused e h)

/-- Values of a usable number are interpolated, and all others are refused for a
    reason that depends on their number. -/
theorem ifft_ok_or_refused (size : Nat) :
    (∃ k ≤ 32, size = 2 ^ k) ∨
      ∃ error, ∀ (e : Engine) (values : Array Element), values.size = size →
        ifft e values = .error error := by
  cases hdomain : domainLog2 size with
  | ok k =>
      rcases domainLog2_eq_ok_iff.mp hdomain with ⟨hsize, hk⟩
      exact Or.inl ⟨k, hk, hsize⟩
  | error error =>
      right
      refine ⟨error, fun e values hvalues => ifft_of_refused e ?_⟩
      rw [hvalues, hdomain]

theorem lde_of_refused (h : domainLog2 values.size = .error error) (rateBits : UInt64) :
    lde e values rateBits = .error error := by
  unfold lde
  rw [h]
  rfl

/-- The sum of the two logarithms does not fit a word. -/
theorem lde_of_overflow {k : Nat} (hk : k ≤ 32) (hsize : values.size = 2 ^ k)
    {rateBits : UInt64} (hrate : UInt64.size ≤ k + rateBits.toNat) :
    lde e values rateBits = .error (.violation .overflow) := by
  have hword := toNat_ofNat_of_le_width (by omega : k ≤ 64)
  have hadd : Checked.add (UInt64.ofNat k) rateBits = .error .overflow :=
    if_neg (by rw [hword]; exact Nat.not_lt_of_le hrate)
  unfold lde
  rw [hsize, domainLog2_two_pow hk, ok_bind, hadd]
  rfl

/-- The sum of the two logarithms fits a word and exceeds the two-adicity. -/
theorem lde_of_large {k : Nat} (hk : k ≤ 32) (hsize : values.size = 2 ^ k) {rateBits : UInt64}
    (hrate : 32 < k + rateBits.toNat) (hfits : k + rateBits.toNat < UInt64.size) :
    lde e values rateBits = .error (.domainTooLarge (k + rateBits.toNat) maxLog2Size) := by
  have hword := toNat_ofNat_of_le_width (by omega : k ≤ 64)
  have hsum : (UInt64.ofNat (k + rateBits.toNat)).toNat = k + rateBits.toNat :=
    UInt64.toNat_ofNat_of_lt' hfits
  have hadd : Checked.add (UInt64.ofNat k) rateBits = .ok (UInt64.ofNat (k + rateBits.toNat)) := by
    rw [Checked.add_eq_ok_iff, hsum, hword]
  unfold lde
  rw [hsize, domainLog2_two_pow hk, ok_bind, hadd]
  show (if maxLog2Size < (UInt64.ofNat (k + rateBits.toNat)).toNat then _ else _) = _
  rw [hsum]
  exact if_pos hrate

/-- Coefficients of a usable number are extended if the field has room for it,
    and all others are refused for a reason that depends on their number and the
    rate. -/
theorem lde_ok_or_refused (size : Nat) (rateBits : UInt64) :
    (∃ k, size = 2 ^ k ∧ k + rateBits.toNat ≤ 32) ∨
      ∃ error, ∀ (e : Engine) (coefficients : Array Element), coefficients.size = size →
        lde e coefficients rateBits = .error error := by
  cases hdomain : domainLog2 size with
  | error error =>
      right
      refine ⟨error, fun e coefficients hcoefficients => lde_of_refused e ?_ rateBits⟩
      rw [hcoefficients, hdomain]
  | ok k =>
      rcases domainLog2_eq_ok_iff.mp hdomain with ⟨hsize, hk⟩
      by_cases hroom : k + rateBits.toNat ≤ 32
      · exact Or.inl ⟨k, hsize, hroom⟩
      · right
        -- The sum of the two logarithms exceeds a word or the two-adicity.
        by_cases hfits : k + rateBits.toNat < UInt64.size
        · exact ⟨_, fun e _ h => lde_of_large e hk (h.trans hsize) (Nat.lt_of_not_le hroom) hfits⟩
        · exact ⟨_, fun e _ h => lde_of_overflow e hk (h.trans hsize) (Nat.le_of_not_lt hfits)⟩

section Columns

variable {columns : Array (Array Element)} {size : Nat}

/-- A fork over columns that are all refused for one reason. -/
theorem collect_of_refused
    {transform : Engine → Array Element → Except TransformError (Array Element)}
    (hcolumns : 0 < columns.size)
    (hsize : ∀ i (hi : i < columns.size), columns[i].size = size)
    (hrefused : ∀ (e : Engine) (values : Array Element), values.size = size →
      transform e values = .error error) (forked : Bool) :
    e.schedule.collect forked columns.size
      (fun i => transform (e.branch i) (columns.getD i #[])) = .error error := by
  have htask (i : Nat) (hi : i < columns.size) :
      transform (e.branch i) (columns.getD i #[]) = .error error := by
    rw [← Array.getElem_eq_getD (h := hi) #[]]
    exact hrefused _ _ (hsize i hi)
  apply e.schedule.collect_eq_error
  · intro i hi e' hrefuse
    rw [htask i hi, Except.error.injEq] at hrefuse
    exact hrefuse.symm
  · exact ⟨0, hcolumns, htask 0 hcolumns⟩

theorem interpolateColumns_of_refused (hcolumns : 0 < columns.size)
    (hsize : ∀ i (hi : i < columns.size), columns[i].size = size)
    (hrefused : ∀ (e : Engine) (values : Array Element), values.size = size →
      ifft e values = .error error) : interpolateColumns e columns = .error error :=
  collect_of_refused e hcolumns hsize hrefused _

theorem ldeBatch_of_refused {rateBits : UInt64} (hcolumns : 0 < columns.size)
    (hsize : ∀ i (hi : i < columns.size), columns[i].size = size)
    (hrefused : ∀ (e : Engine) (coefficients : Array Element), coefficients.size = size →
      lde e coefficients rateBits = .error error) : ldeBatch e columns rateBits = .error error := by
  let transform (e : Engine) (coefficients : Array Element) := lde e coefficients rateBits
  have htransform : ∀ (e : Engine) (coefficients : Array Element), coefficients.size = size →
      transform e coefficients = .error error := hrefused
  exact collect_of_refused e hcolumns hsize htransform _

end Columns

end TraceCommit
