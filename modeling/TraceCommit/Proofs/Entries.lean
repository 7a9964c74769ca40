import TraceCommit.Polynomial
import TraceCommit.Proofs.Field.Unity
import TraceCommit.Proofs.Transform.BitReversal
import Mathlib.Algebra.BigOperators.Ring.Finset

/-!
# Sequences as Functions

A sequence of elements seen as a function on all numbers, which is zero behind
the sequence's end. Whether a sequence has been padded with zeros cannot be told
from its entries, and neither can it from the values of its polynomial.

## Main definitions

* `entry`: The element at an index, or zero.

## Theorems

* `ext_entry`: A sequence is known by its length and its entries.
* `Polynomial.eval_eq_sum`: The value of a polynomial as a sum over entries.
-/

namespace TraceCommit

open Finset

/-- The element at an index, or zero behind the end. -/
def entry (xs : Array Element) (i : Nat) : Element := xs.getD i 0

theorem entry_of_lt {xs : Array Element} {i : Nat} (h : i < xs.size) : entry xs i = xs[i] :=
  (Array.getElem_eq_getD 0).symm

theorem entry_of_le {xs : Array Element} {i : Nat} (h : xs.size ≤ i) : entry xs i = 0 := by
  unfold entry
  rw [Array.getD_eq_getD_getElem?, Array.getElem?_eq_none h, Option.getD_none]

/-- A sequence is known by its length and its entries. -/
theorem ext_entry {xs ys : Array Element} (hsize : xs.size = ys.size)
    (h : ∀ i < xs.size, entry xs i = entry ys i) : xs = ys := by
  refine Array.ext hsize (fun i h1 h2 => ?_)
  rw [← entry_of_lt h1, ← entry_of_lt h2, h i h1]

theorem entry_ofFn {n : Nat} (f : Nat → Element) {i : Nat} (h : i < n) :
    entry (Array.ofFn fun i : Fin n => f i) i = f i := by
  rw [entry_of_lt (by rwa [Array.size_ofFn]), Array.getElem_ofFn]

theorem entry_append_left {xs ys : Array Element} {i : Nat} (h : i < xs.size) :
    entry (xs ++ ys) i = entry xs i := by
  unfold entry
  rw [Array.getD_eq_getD_getElem?, Array.getD_eq_getD_getElem?, Array.getElem?_append_left h]

theorem entry_append_right {xs ys : Array Element} {i : Nat} (h : xs.size ≤ i) :
    entry (xs ++ ys) i = entry ys (i - xs.size) := by
  unfold entry
  rw [Array.getD_eq_getD_getElem?, Array.getD_eq_getD_getElem?, Array.getElem?_append_right h]

theorem entry_extract {xs : Array Element} {start stop i : Nat} (h : start + i < stop) :
    entry (xs.extract start stop) i = entry xs (start + i) := by
  unfold entry
  rw [Array.getD_eq_getD_getElem?, Array.getD_eq_getD_getElem?, Array.getElem?_extract]
  -- Behind the end of the whole both are zero.
  by_cases hi : start + i < xs.size
  · rw [if_pos (by omega)]
  · rw [if_neg (by omega), Array.getElem?_eq_none (by omega)]

theorem entry_zipWith {f : Element → Element → Element} {xs ys : Array Element} {i : Nat}
    (hx : i < xs.size) (hy : i < ys.size) :
    entry (Array.zipWith f xs ys) i = f (entry xs i) (entry ys i) := by
  rw [entry_of_lt (by rw [Array.size_zipWith]; omega), entry_of_lt hx, entry_of_lt hy,
    Array.getElem_zipWith]

theorem entry_bitReversed {bits : Nat} {xs : Array Element} (hsize : xs.size = 2 ^ bits) {j : Nat}
    (hj : j < 2 ^ bits) : entry (bitReversed bits xs) j = entry xs (reversal bits j) := by
  have hrev := reversal_lt_size hsize j
  rw [entry_of_lt (by rwa [size_bitReversed, hsize]), getElem_bitReversed _ hrev, entry_of_lt hrev]

theorem size_padZeros {n : Nat} {xs : Array Element} (h : xs.size ≤ n) :
    (padZeros n xs).size = n := by
  unfold padZeros
  rw [Array.size_append, Array.size_replicate]
  omega

/-- Padding with zeros changes no entry. -/
theorem entry_padZeros (n : Nat) (xs : Array Element) (i : Nat) :
    entry (padZeros n xs) i = entry xs i := by
  unfold padZeros
  by_cases h : i < xs.size
  · rw [entry_append_left h]
  · -- Behind the end both are zero, in the padding and behind it.
    rw [entry_append_right (by omega), entry_of_le (by omega : xs.size ≤ i)]
    unfold entry
    rw [Array.getD_eq_getD_getElem?, Array.getElem?_replicate]
    split
    · rfl
    · rfl

/-- Horner's rule on a list. -/
theorem foldr_horner (point : Element) (l : List Element) :
    l.foldr (fun coefficient rest => rest * point + coefficient) 0 =
      ∑ t ∈ range l.length, l.getD t 0 * point ^ t := by
  induction l with
  | nil => rw [List.length_nil, sum_range_zero, List.foldr_nil]
  | cons a rest ih =>
      -- The tail's sum is multiplied with the point, which shifts its powers by one.
      have hshift : ∀ t, (a :: rest).getD (t + 1) 0 * point ^ (t + 1) =
          rest.getD t 0 * point ^ t * point := by
        intro t
        rw [List.getD_cons_succ, pow_succ, mul_assoc]
      rw [List.foldr_cons, ih, List.length_cons, sum_range_succ', List.getD_cons_zero, pow_zero,
        mul_one, sum_congr rfl (fun t _ => hshift t), sum_mul]

/-- The value of a polynomial is the sum of its entries times the powers of the
    point, over any range that leaves no coefficient out. -/
theorem Polynomial.eval_eq_sum {coefficients : Array Element} {n : Nat}
    (h : coefficients.size ≤ n) (point : Element) :
    (Polynomial.mk coefficients).eval point =
      ∑ t ∈ range n, entry coefficients t * point ^ t := by
  have hlist : (Polynomial.mk coefficients).eval point =
      ∑ t ∈ range coefficients.size, entry coefficients t * point ^ t := by
    unfold Polynomial.eval
    rw [← Array.foldr_toList, foldr_horner, Array.length_toList]
    refine sum_congr rfl (fun t _ => ?_)
    rw [entry, Array.getD_eq_getD_getElem?, List.getD_eq_getElem?_getD, Array.getElem?_toList]
  rw [hlist]
  -- The terms behind the last coefficient are zero.
  refine sum_subset (range_mono h) (fun t _ ht => ?_)
  rw [entry_of_le (by rwa [mem_range, not_lt] at ht), zero_mul]

end TraceCommit
