import TraceCommit.Proofs.Transform.BitReversal

/-!
# Reversal in Place

The bit reversal swap by swap makes of a sequence what the function makes of it
that transforms are made of. It is a permutation and its own inverse.

The length is looked at before the first swap. One that is above two and no power
of two ends the action there, and all items are where they were.

## Main definitions

* `ReversedFrom`: The items stand at the reversed positions.

## Theorems

* `InPlace.apply_forM`: Actions one after another are steps of a fold.
* `apply_reverseInPlace`: The function is what the action makes.
* `run_reverseInPlace_of_not_two_pow`: A length that is refused.
* `reversal_in_place`: The permutation, its inverse, and the refusal.
-/

namespace TraceCommit

variable {α β : Type}

namespace InPlace

theorem apply_bind (action next : InPlace α Unit) (xs : Array α) :
    (action >>= fun _ => next).apply xs = action.apply xs >>= next.apply := by
  unfold apply
  rw [EStateM.run_bind]
  cases action.run xs with
  | ok _ ys => rfl
  | error e ys => rfl

/-- Actions one after another make of a sequence what a fold makes of it. -/
theorem apply_forM (action : β → InPlace α Unit) (items : List β) : ∀ xs,
    (items.forM action).apply xs = items.foldlM (fun xs b => (action b).apply xs) xs := by
  induction items with
  | nil =>
      intro xs
      rfl
  | cons b items ih =>
      intro xs
      show (action b >>= fun _ => items.forM action).apply xs = _
      rw [apply_bind, List.foldlM_cons]
      exact bind_congr ih

end InPlace

theorem apply_swapInPlace (bits i : Nat) (xs : Array α) :
    (swapInPlace bits i).apply xs = swapReversed bits i xs := by
  unfold swapInPlace swapReversed
  cases reverseBits (UInt64.ofNat i) (UInt64.ofNat bits) with
  | error e => rfl
  | ok j =>
      show InPlace.apply (if i < j.toNat then _ else _) xs = (if i < j.toNat then _ else _)
      by_cases hlt : i < j.toNat
      · rw [if_pos hlt, if_pos hlt]
        show InPlace.apply (liftM (swapItems xs i j.toNat) >>= set) xs = _
        cases swapItems xs i j.toNat with
        | error e => rfl
        | ok ys => rfl
      · rw [if_neg hlt, if_neg hlt]
        rfl

/-- The length decides about the swaps before the first of them. -/
theorem run_reverseInPlace (xs : Array α) : reverseInPlace.run xs =
    if 2 < xs.size then
      match log2Strict xs.size with
      | .ok bits => ((List.range xs.size).forM (swapInPlace bits)).run xs
      | .error e => .error e xs
    else .ok () xs := by
  show (if 2 < xs.size then _ else _ : InPlace α Unit).run xs = _
  by_cases hlong : 2 < xs.size
  · rw [if_pos hlong, if_pos hlong]
    cases log2Strict xs.size with
    | ok bits => rfl
    | error e => rfl
  · rw [if_neg hlong, if_neg hlong]
    rfl

/-- Forgetting what is left behind when it breaks off, the action is the function. -/
theorem apply_reverseInPlace (xs : Array α) : reverseInPlace.apply xs = reverseIndexBits xs := by
  unfold InPlace.apply reverseIndexBits
  rw [run_reverseInPlace]
  by_cases hshort : xs.size ≤ 2
  · rw [if_neg (Nat.not_lt_of_le hshort), if_pos hshort]
    rfl
  · rw [if_pos (Nat.lt_of_not_le hshort), if_neg hshort]
    cases log2Strict xs.size with
    | error e => rfl
    | ok bits =>
        refine (InPlace.apply_forM (swapInPlace bits) _ xs).trans ?_
        simp only [apply_swapInPlace]
        rfl

/-- A length that is no power of two ends the action before anything is moved. -/
theorem run_reverseInPlace_of_not_two_pow {xs : Array α} (hlong : 2 < xs.size)
    (hpower : ¬ ∃ k, xs.size = 2 ^ k) :
    reverseInPlace.run xs = .error (.notPowerOfTwo xs.size) xs := by
  have hlog2 : log2Strict xs.size = .error (.notPowerOfTwo xs.size) :=
    if_neg (fun h => hpower (isTwoPower_iff.mp h))
  rw [run_reverseInPlace, if_pos hlong, hlog2]

/-- The items of the second sequence stood in the first one at the positions whose
    binary digits, `bits` of them, are those of their own in reverse order. -/
structure ReversedFrom (bits : Nat) (xs ys : Array α) : Prop where
  size_eq : ys.size = xs.size
  place : ∀ i < 2 ^ bits, ∃ j : UInt64,
    reverseBits (UInt64.ofNat i) (UInt64.ofNat bits) = .ok j ∧ j.toNat < 2 ^ bits ∧
      (∀ t < bits, j.toNat.testBit t = i.testBit (bits - 1 - t)) ∧ ys[i]? = xs[j.toNat]?

theorem reversedFrom_bitReversed {bits : Nat} (hbits : bits < 64) {xs : Array α}
    (hsize : xs.size = 2 ^ bits) : ReversedFrom bits xs (bitReversed bits xs) where
  size_eq := size_bitReversed bits xs
  place := fun i hi => by
    have hword : 2 ^ bits < UInt64.size := Nat.pow_lt_pow_right (by omega : 1 < 2) hbits
    have hrev := reversal_lt bits i
    have htarget : (UInt64.ofNat (reversal bits i)).toNat = reversal bits i :=
      UInt64.toNat_ofNat_of_lt' (by omega)
    refine ⟨_, reverseBits_eq (Nat.le_of_lt hbits) (by omega), ?_⟩
    rw [htarget]
    refine ⟨hrev, fun t ht => ?_, ?_⟩
    · rw [testBit_reversal, decide_eq_true ht, Bool.true_and]
    · have hplace : reversal bits i < xs.size := reversal_lt_size hsize i
      have hi' : i < (bitReversed bits xs).size := by rwa [size_bitReversed, hsize]
      rw [Array.getElem?_eq_getElem hi', Array.getElem?_eq_getElem hplace,
        getElem_bitReversed hi' hplace]

/-- Two reversals bring every item back to where it was. -/
theorem bitReversed_bitReversed {bits : Nat} {xs : Array α} (hsize : xs.size = 2 ^ bits) :
    bitReversed bits (bitReversed bits xs) = xs := by
  have hsize' : (bitReversed bits xs).size = 2 ^ bits := (size_bitReversed bits xs).trans hsize
  refine Array.ext ?_ (fun i h1 h2 => ?_)
  · rw [size_bitReversed, size_bitReversed]
  · have hi : i < 2 ^ bits := by rwa [hsize] at h2
    rw [getElem_bitReversed h1 (reversal_lt_size hsize' i),
      getElem_bitReversed _ (reversal_lt_size hsize _)]
    simp only [reversal_reversal hi]

/-- A sequence whose length is a power of two, and a word as all lengths are, is
    permuted: each item is the one that stood at the reversed position, and the same
    action once more brings all of them back. A length above two that is no power of
    two is refused, and the sequence is left as it was. -/
theorem reversal_in_place (xs : Array α) :
    (∀ ys : Array α, reverseInPlace.apply ys = reverseIndexBits ys) ∧
      (∀ bits < 64, xs.size = 2 ^ bits → ∃ ys, reverseIndexBits xs = .ok ys ∧
        ReversedFrom bits xs ys ∧ reverseIndexBits ys = .ok xs) ∧
      (2 < xs.size → (¬ ∃ bits, xs.size = 2 ^ bits) →
        reverseInPlace.run xs = .error (.notPowerOfTwo xs.size) xs) := by
  refine ⟨apply_reverseInPlace, fun bits hbits hsize => ?_, run_reverseInPlace_of_not_two_pow⟩
  have hback : reverseIndexBits (bitReversed bits xs) = .ok xs := by
    rw [reverseIndexBits_eq hbits ((size_bitReversed bits xs).trans hsize),
      bitReversed_bitReversed hsize]
  exact ⟨bitReversed bits xs, reverseIndexBits_eq hbits hsize,
    reversedFrom_bitReversed hbits hsize, hback⟩

/-- Eight items, and three. -/
theorem reversal_in_place_eight :
    reverseIndexBits #[0, 1, 2, 3, 4, 5, 6, 7] = .ok #[0, 4, 2, 6, 1, 5, 3, 7] ∧
      ReversedFrom 3 #[0, 1, 2, 3, 4, 5, 6, 7] #[0, 4, 2, 6, 1, 5, 3, 7] ∧
      reverseInPlace.run #[0, 1, 2] = .error (.notPowerOfTwo 3) #[0, 1, 2] := by
  have hrun : reverseIndexBits #[0, 1, 2, 3, 4, 5, 6, 7] = .ok #[0, 4, 2, 6, 1, 5, 3, 7] := by
    decide +kernel
  rcases (reversal_in_place #[0, 1, 2, 3, 4, 5, 6, 7]).2.1 3 (by decide) rfl with
    ⟨ys, hys, hreversed, -⟩
  have hsame : ys = #[0, 4, 2, 6, 1, 5, 3, 7] := Except.ok.inj (hys.symm.trans hrun)
  have hpower : ¬ ∃ bits, 3 = 2 ^ bits := by
    rw [← isTwoPower_iff]
    decide
  exact ⟨hrun, hsame ▸ hreversed, (reversal_in_place #[0, 1, 2]).2.2 (by decide) hpower⟩

end TraceCommit
