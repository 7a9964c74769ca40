import TraceCommit.Proofs.Word.Bits
import TraceCommit.Transform.BitReversal

/-!
# The Permutation That the Swaps Make

The swaps of a bit reversal come up in the order of their smaller positions. At
any moment the pairs with a position that has come up are exchanged, and all
others are as they were. `reversedBelow` is that moment's sequence, so one more
swap leads from `reversedBelow bits t` to `reversedBelow bits (t + 1)`, and
after the last position every pair has been exchanged.

## Main definitions

* `bitReversed`: The permuted sequence, read off its definition.
* `reversedBelow`: The sequence after the first swaps.

## Theorems

* `swapReversed_reversedBelow`: What one swap does.
* `reverseIndexBits_eq`: The swaps make the permutation.
-/

namespace TraceCommit

variable {α : Type}

/-- The sequence whose item `j` stood at the reversal of `j`. -/
def bitReversed (bits : Nat) (xs : Array α) : Array α :=
  xs.mapIdx fun j x => xs.getD (reversal bits j) x

/-- The sequence in which the pairs with a position below `t` are exchanged. -/
def reversedBelow (bits t : Nat) (xs : Array α) : Array α :=
  xs.mapIdx fun j x =>
    if j < t ∨ reversal bits j < t then xs.getD (reversal bits j) x else x

theorem size_bitReversed (bits : Nat) (xs : Array α) : (bitReversed bits xs).size = xs.size :=
  Array.size_mapIdx

theorem size_reversedBelow (bits t : Nat) (xs : Array α) :
    (reversedBelow bits t xs).size = xs.size :=
  Array.size_mapIdx

/-- Every position of a sequence of `2 ^ bits` items has its reversal in it. -/
theorem reversal_lt_size {bits : Nat} {xs : Array α} (hsize : xs.size = 2 ^ bits) (j : Nat) :
    reversal bits j < xs.size :=
  hsize ▸ reversal_lt bits j

theorem getElem_bitReversed {bits : Nat} {xs : Array α} {j : Nat}
    (hj : j < (bitReversed bits xs).size) (hrev : reversal bits j < xs.size) :
    (bitReversed bits xs)[j] = xs[reversal bits j] := by
  exact (Array.getElem_mapIdx hj).trans (Array.getElem_eq_getD _).symm

theorem getElem_reversedBelow {bits t : Nat} {xs : Array α} {j : Nat}
    (hj : j < (reversedBelow bits t xs).size) (hrev : reversal bits j < xs.size)
    (hlt : j < xs.size) :
    (reversedBelow bits t xs)[j] =
      if j < t ∨ reversal bits j < t then xs[reversal bits j] else xs[j] := by
  rw [Array.getElem_eq_getD (h := hrev) xs[j]]
  exact Array.getElem_mapIdx hj

/-- Before the first swap nothing has changed. -/
theorem reversedBelow_zero (bits : Nat) (xs : Array α) : reversedBelow bits 0 xs = xs := by
  refine Array.ext (size_reversedBelow bits 0 xs) (fun j h1 h2 => ?_)
  exact (Array.getElem_mapIdx h1).trans (if_neg (by omega))

/-- After the last swap every pair has been exchanged. -/
theorem reversedBelow_size (bits : Nat) (xs : Array α) :
    reversedBelow bits xs.size xs = bitReversed bits xs := by
  refine Array.ext ?_ (fun j h1 h2 => ?_)
  · rw [size_reversedBelow, size_bitReversed]
  · rw [size_reversedBelow] at h1
    refine (Array.getElem_mapIdx _).trans ?_
    rw [if_pos (Or.inl h1)]
    exact (Array.getElem_mapIdx h2).symm

/-- A position that is not the smaller one of its pair changes nothing when it
    comes up. -/
theorem reversedBelow_succ_of_le {bits t : Nat} {xs : Array α} (hsize : xs.size = 2 ^ bits)
    (ht : t < 2 ^ bits) (hle : reversal bits t ≤ t) :
    reversedBelow bits (t + 1) xs = reversedBelow bits t xs := by
  refine Array.ext ?_ (fun j h1 h2 => ?_)
  · rw [size_reversedBelow, size_reversedBelow]
  · have hj : j < 2 ^ bits := by rwa [size_reversedBelow, hsize] at h1
    have hlt : j < xs.size := by rwa [hsize]
    have hrev := reversal_lt_size hsize j
    rw [getElem_reversedBelow h1 hrev hlt, getElem_reversedBelow h2 hrev hlt]
    -- Only `t` and its reversal could be affected. Either has been exchanged before,
    -- or `t` is its own reversal.
    by_cases hjt : j = t
    · subst hjt
      rw [if_pos (Or.inl (Nat.lt_succ_self j))]
      split
      · rfl
      · have hfix : reversal bits j = j := by omega
        simp only [hfix]
    · by_cases hrt : reversal bits j = t
      · have hback : reversal bits t = j := by rw [← hrt, reversal_reversal hj]
        rw [if_pos (Or.inr (by omega)), if_pos (Or.inl (by omega))]
      · have hsame : (j < t + 1 ∨ reversal bits j < t + 1) ↔ (j < t ∨ reversal bits j < t) := by
          omega
        simp only [hsame]

/-- The smaller position of a pair exchanges it when it comes up. -/
theorem swapIfInBounds_reversedBelow {bits t : Nat} {xs : Array α} (hsize : xs.size = 2 ^ bits)
    (ht : t < 2 ^ bits) (hlt : t < reversal bits t) :
    (reversedBelow bits t xs).swapIfInBounds t (reversal bits t) =
      reversedBelow bits (t + 1) xs := by
  have hback : reversal bits (reversal bits t) = t := reversal_reversal ht
  have hplace : t < xs.size := by rwa [hsize]
  have hplace' := reversal_lt_size hsize t
  refine Array.ext ?_ (fun j h1 h2 => ?_)
  · rw [Array.size_swapIfInBounds, size_reversedBelow, size_reversedBelow]
  · have hj : j < 2 ^ bits := by rwa [size_reversedBelow, hsize] at h2
    have hlt : j < xs.size := by rwa [hsize]
    have hrev := reversal_lt_size hsize j
    rw [getElem_reversedBelow h2 hrev hlt]
    -- Position `t` receives what its reversal holds, the reversal what `t` holds, and
    -- neither had been touched.
    by_cases hjt : j = t
    · subst hjt
      rw [if_pos (Or.inl (Nat.lt_succ_self j)),
        Array.getElem_swapIfInBounds_left (by rwa [size_reversedBelow]),
        getElem_reversedBelow _ (by rwa [hback]) hplace', if_neg (by omega)]
    · by_cases hjr : j = reversal bits t
      · subst hjr
        rw [if_pos (Or.inr (by omega)),
          Array.getElem_swapIfInBounds_right (by rwa [size_reversedBelow]),
          getElem_reversedBelow _ hplace' hplace, if_neg (by omega)]
        simp only [hback]
      · have hrt : reversal bits j ≠ t := by
          intro h
          exact hjr (by rw [← h, reversal_reversal hj])
        have hsame : (j < t + 1 ∨ reversal bits j < t + 1) ↔ (j < t ∨ reversal bits j < t) := by
          omega
        rw [Array.getElem_swapIfInBounds_of_ne_of_ne hjt hjr, getElem_reversedBelow _ hrev hlt]
        simp only [hsame]

/-- What the swaps have done when one more position comes up. -/
theorem swapReversed_reversedBelow {bits t : Nat} {xs : Array α} (hbits : bits < 64)
    (hsize : xs.size = 2 ^ bits) (ht : t < 2 ^ bits) :
    swapReversed bits t (reversedBelow bits t xs) = .ok (reversedBelow bits (t + 1) xs) := by
  -- Positions fit a word, so reversing them as words is reversing them as numbers.
  have hword : 2 ^ bits < UInt64.size :=
    Nat.pow_lt_pow_right (by omega : 1 < 2) hbits
  have hrev := reversal_lt bits t
  have htarget : (UInt64.ofNat (reversal bits t)).toNat = reversal bits t :=
    UInt64.toNat_ofNat_of_lt' (by omega)
  have hreverse := reverseBits_eq (Nat.le_of_lt hbits) (by omega : t < UInt64.size)
  unfold swapReversed
  rw [hreverse, ok_bind, htarget]
  dsimp only
  split
  · rename_i hlt
    have hplace : t < (reversedBelow bits t xs).size := by rwa [size_reversedBelow, hsize]
    have hplace' : reversal bits t < (reversedBelow bits t xs).size := by
      rwa [size_reversedBelow, hsize]
    rw [swapItems_of_lt hplace hplace', swapIfInBounds_reversedBelow hsize ht hlt]
  · rename_i hge
    rw [reversedBelow_succ_of_le hsize ht (by omega)]
    rfl

/-- What the swaps have done when the first `t` positions have come up. -/
theorem foldlM_swapReversed {bits : Nat} {xs : Array α} (hbits : bits < 64)
    (hsize : xs.size = 2 ^ bits) (t : Nat) (ht : t ≤ 2 ^ bits) :
    (List.range t).foldlM (fun xs i => swapReversed bits i xs) xs =
      .ok (reversedBelow bits t xs) := by
  induction t with
  | zero =>
      rw [reversedBelow_zero]
      rfl
  | succ t ih =>
      rw [List.range_succ, List.foldlM_append, ih (by omega)]
      show [t].foldlM (fun xs i => swapReversed bits i xs) (reversedBelow bits t xs) = _
      rw [List.foldlM_cons, swapReversed_reversedBelow hbits hsize (by omega)]
      rfl

/-- The swaps make the permutation, also for the short sequences that they
    leave in place. -/
theorem reverseIndexBits_eq {bits : Nat} {xs : Array α} (hbits : bits < 64)
    (hsize : xs.size = 2 ^ bits) : reverseIndexBits xs = .ok (bitReversed bits xs) := by
  unfold reverseIndexBits
  by_cases hshort : xs.size ≤ 2
  · rw [if_pos hshort]
    show Except.ok xs = .ok (bitReversed bits xs)
    -- Reversing no digit or a single one changes nothing.
    have hone : bits < 2 := by
      refine (Nat.pow_lt_pow_iff_right (by omega : 1 < 2)).mp ?_
      omega
    rw [Except.ok.injEq]
    refine Array.ext (size_bitReversed bits xs).symm (fun j h1 h2 => ?_)
    rw [getElem_bitReversed h2 (reversal_lt_size hsize j)]
    have hfix : reversal bits j = j := by
      rw [hsize] at h1
      have hcases : bits = 0 ∨ bits = 1 := by omega
      rcases hcases with rfl | rfl
      · rw [reversal]
        omega
      · rw [reversal, reversal]
        omega
    simp only [hfix]
  · rw [if_neg hshort, hsize, log2Strict_two_pow]
    refine (foldlM_swapReversed hbits hsize _ (Nat.le_refl _)).trans ?_
    rw [← hsize, reversedBelow_size]

end TraceCommit
