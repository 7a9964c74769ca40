import TraceCommit.Hash.Poseidon.Permutation
import TraceCommit.Proofs.Field.Unity
import Mathlib.Algebra.BigOperators.Fin
import Mathlib.Tactic.Abel
import Mathlib.Tactic.LinearCombination

/-!
# The Linear Layer of the Poseidon Permutation

A row of the linear layer is accumulated in a double word, which never
overflows: the coefficients of a row add up to no more than 264, and a double
word has room for `2 ^ 64` words. So the reduced row is the product of the
state with a row of the matrix, which is a circulant matrix and one entry on
the diagonal.

Circulant matrices are polynomials modulo `x ^ 12 - 1`, and the inverse of one
is another one. Its coefficients are given here, and that they are right is
computed. Multiplying by it leaves of the whole layer the state itself and a
multiple of the state's first element, which comes from the diagonal. That
multiple is known once the first element is, and the first element is known
because it comes out multiplied by something other than zero. So the layer loses
nothing.

## Main definitions

* `Poseidon.circulantSum`: What a row accumulates from the circulant matrix.
* `Poseidon.circulantAt`, `Poseidon.diagonalAt`: The matrix.
* `Poseidon.unmixing`: The inverse of the circulant matrix.

## Theorems

* `Poseidon.toNat_mixRow`: The accumulators are exact.
* `Poseidon.get_mix`: The layer is the product with the matrix.
* `Poseidon.sum_unmixing_mix`: Undoing the circulant part.
* `Poseidon.mix_injective`: The layer loses nothing.
-/

namespace TraceCommit

open Finset

namespace Wide

theorem toNat_ofWord (w : UInt64) : (ofWord w).toNat = w.toNat := by
  simp only [ofWord, toNat, UInt64.toNat_zero, Nat.zero_mul, Nat.zero_add]

theorem toNat_add {a b : Wide} (h : a.toNat + b.toNat < size) :
    (a.add b).toNat = a.toNat + b.toNat := by
  have hs : UInt64.size = 18446744073709551616 := rfl
  have haLo := a.lo.toNat_lt
  have hbLo := b.lo.toNat_lt
  unfold toNat size at h
  rw [hs] at h
  simp only [add, toNat, hs]
  -- The carry is what the low words are short of.
  by_cases hcarry : a.lo + b.lo < a.lo
  · have h1 : (1 : UInt64).toNat = 1 := rfl
    rw [UInt64.lt_iff_toNat_lt, UInt64.toNat_add] at hcarry
    rw [if_pos (by rw [UInt64.lt_iff_toNat_lt, UInt64.toNat_add]; exact hcarry), UInt64.toNat_add,
      UInt64.toNat_add, UInt64.toNat_add, h1]
    omega
  · rw [UInt64.lt_iff_toNat_lt, UInt64.toNat_add] at hcarry
    rw [if_neg (by rw [UInt64.lt_iff_toNat_lt, UInt64.toNat_add]; exact hcarry), UInt64.add_zero,
      UInt64.toNat_add, UInt64.toNat_add]
    omega

/-- An accumulator holds the sum of what was added to it, as long as that fits. -/
theorem toNat_fold_add {n : Nat} (term : (i : Nat) → i < n → Wide) (start : Wide)
    (h : start.toNat + ∑ i : Fin n, (term i i.isLt).toNat < size) :
    (n.fold (fun i hi acc => acc.add (term i hi)) start).toNat =
      start.toNat + ∑ i : Fin n, (term i i.isLt).toNat := by
  induction n with
  | zero => simp
  | succ n ih =>
      rw [Fin.sum_univ_castSucc] at h ⊢
      have hrest := ih (fun i hi => term i (Nat.lt_succ_of_lt hi))
        (Nat.lt_of_le_of_lt (by simp only [Fin.val_castSucc]; omega) h)
      simp only [Fin.val_castSucc, Fin.val_last] at h ⊢
      rw [Nat.fold_succ, toNat_add (by rw [hrest]; omega), hrest]
      omega

end Wide

namespace Poseidon

theorem sum_circulant : ∑ i : Fin 12, (circulant.get i).toNat = 256 := by decide

theorem diagonal_le (row : Fin 12) : (diagonal.get row).toNat ≤ 8 := by
  revert row
  decide

/-- What a row accumulates from the circulant matrix. -/
def circulantSum (raw : Vector UInt64 12) (row : Fin 12) : Nat :=
  ∑ i : Fin 12, (raw.get (i + row)).toNat * (circulant.get i).toNat

theorem circulantSum_le (raw : Vector UInt64 12) (row : Fin 12) :
    circulantSum raw row ≤ UInt64.size * 256 := by
  unfold circulantSum
  rw [← sum_circulant, mul_sum]
  exact sum_le_sum fun i _ => Nat.mul_le_mul_right _ (Nat.le_of_lt (UInt64.toNat_lt _))

/-- What coefficient `i` of the circulant matrix adds to the accumulator of a row. The
    column that it multiplies is counted on from the row, around the end. -/
def circulantTerm (raw : Vector UInt64 12) (row i : Fin 12) : Wide :=
  .product (raw.get (i + row)) (circulant.get i)

/-- What the accumulator of a row holds before the diagonal is added. -/
def circulantPart (raw : Vector UInt64 12) (row : Fin 12) : Wide :=
  Nat.fold 12 (fun i h acc => acc.add (circulantTerm raw row ⟨i, h⟩)) (.ofWord 0)

theorem mixRow_eq (raw : Vector UInt64 12) (row : Fin 12) :
    mixRow raw row = (circulantPart raw row).add (.product (raw.get row) (diagonal.get row)) :=
  rfl

theorem sum_circulantTerm (raw : Vector UInt64 12) (row : Fin 12) :
    ∑ i : Fin 12, (circulantTerm raw row i).toNat = circulantSum raw row :=
  sum_congr rfl fun _ _ => Wide.toNat_product _ _

theorem circulantSum_lt (raw : Vector UInt64 12) (row : Fin 12) :
    circulantSum raw row < Wide.size :=
  Nat.lt_of_le_of_lt (circulantSum_le raw row) (by decide)

theorem toNat_circulantPart (raw : Vector UInt64 12) (row : Fin 12) :
    (circulantPart raw row).toNat = circulantSum raw row := by
  have hfold := Wide.toNat_fold_add (fun i h => circulantTerm raw row ⟨i, h⟩) (.ofWord 0)
  rw [Wide.toNat_ofWord, UInt64.toNat_zero, Nat.zero_add, sum_circulantTerm] at hfold
  exact hfold (circulantSum_lt raw row)

/-- There is room for the diagonal too. -/
theorem toNat_circulantPart_add_lt (raw : Vector UInt64 12) (row : Fin 12) :
    (circulantPart raw row).toNat + (Wide.product (raw.get row) (diagonal.get row)).toNat <
      Wide.size := by
  have hdiagonal : (raw.get row).toNat * (diagonal.get row).toNat ≤ UInt64.size * 8 :=
    Nat.mul_le_mul (Nat.le_of_lt (UInt64.toNat_lt _)) (diagonal_le row)
  have hcirculant := circulantSum_le raw row
  have hfit : UInt64.size * 256 + UInt64.size * 8 < Wide.size := by decide
  rw [toNat_circulantPart, Wide.toNat_product]
  omega

/-- The accumulator of a row is exact: it never holds more than 264 words' worth. -/
theorem toNat_mixRow (raw : Vector UInt64 12) (row : Fin 12) :
    (mixRow raw row).toNat =
      circulantSum raw row + (raw.get row).toNat * (diagonal.get row).toNat := by
  rw [mixRow_eq, Wide.toNat_add (toNat_circulantPart_add_lt raw row), toNat_circulantPart,
    Wide.toNat_product]

/-- A row of the layer is the reduction of its accumulator. -/
theorem get_mix_eq_ofWide (s : State) (r : Fin 12) :
    (mix s).get r = .ofWide (mixRow (s.map Element.val) r) :=
  Vector.getElem_ofFn r.isLt

theorem toNat_get_map_val (s : State) (i : Fin 12) :
    ((s.map Element.val).get i).toNat = (s.get i).val.toNat := by
  change (s.map Element.val)[i.val].toNat = s[i.val].val.toNat
  rw [Vector.getElem_map]

/-- The coefficients of the circulant matrix. -/
def circulantAt (i : Fin 12) : Element := .ofWord (circulant.get i)

/-- Those added on the diagonal. -/
def diagonalAt (r : Fin 12) : Element := .ofWord (diagonal.get r)

/-- The linear layer is the product with a matrix: the circulant's coefficient
    `i` stands in column `r + i` of row `r`. -/
theorem get_mix (s : State) (r : Fin 12) :
    (mix s).get r = ∑ i : Fin 12, circulantAt i * s.get (i + r) + diagonalAt r * s.get r := by
  rw [get_mix_eq_ofWide, Element.ofWide_eq, toNat_mixRow, circulantSum]
  push_cast
  simp only [toNat_get_map_val, Element.natCast_toNat_val, circulantAt, diagonalAt,
    Element.ofWord_eq, mul_comm]

/-- The first column of the inverse of the circulant matrix, which is circulant too. -/
def unmixing : Vector UInt64 12 :=
  #v[8386575955297330374, 12243788021200855645, 128690909467520215, 3710019852814837202,
    12036999583539127392, 4984521098135580022, 9864392587504233340, 1385581819355263477,
    7471478974207765647, 15004557337233918446, 11010945932670469968, 5934110681624869157]

def unmixingAt (i : Fin 12) : Element := .ofWord (unmixing.get i)

theorem sum_unmixing_mul (m : Fin 12) :
    ∑ j : Fin 12, unmixingAt j * circulantAt (m - j) = if m = 0 then 1 else 0 := by
  revert m
  decide +kernel

theorem diagonalAt_of_ne_zero {r : Fin 12} (hr : r ≠ 0) : diagonalAt r = 0 := by
  revert r
  decide +kernel

theorem unmixing_zero_ne : 1 + unmixingAt 0 * diagonalAt 0 ≠ 0 := by
  decide +kernel

/-- Undoing the circulant part gives the state back, up to what the diagonal has
    added of its first element. -/
theorem sum_unmixing_mix (s : State) (q : Fin 12) :
    ∑ j : Fin 12, unmixingAt j * (mix s).get (j + q) =
      s.get q + unmixingAt (-q) * diagonalAt 0 * s.get 0 := by
  have hcirculant : ∑ j : Fin 12, unmixingAt j * ∑ i : Fin 12, circulantAt i * s.get (i + (j + q)) =
      s.get q := by
    calc ∑ j : Fin 12, unmixingAt j * ∑ i : Fin 12, circulantAt i * s.get (i + (j + q))
      _ = ∑ j : Fin 12, ∑ m : Fin 12, unmixingAt j * circulantAt (m - j) * s.get (m + q) := by
        refine sum_congr rfl fun j _ => ?_
        -- Counting the columns from the row of `q` makes the shifts add up.
        rw [mul_sum, ← Equiv.sum_comp (Equiv.subRight j)]
        refine sum_congr rfl fun m _ => ?_
        have hplace : m - j + (j + q) = m + q := by abel
        simp only [Equiv.subRight_apply, hplace, mul_assoc]
      _ = ∑ m : Fin 12, (∑ j : Fin 12, unmixingAt j * circulantAt (m - j)) * s.get (m + q) := by
        rw [sum_comm]
        exact sum_congr rfl fun m _ => (sum_mul _ _ _).symm
      _ = s.get q := by
        simp [sum_unmixing_mul]
  have hdiagonal : ∑ j : Fin 12, unmixingAt j * (diagonalAt (j + q) * s.get (j + q)) =
      unmixingAt (-q) * diagonalAt 0 * s.get 0 := by
    rw [sum_eq_single (-q)]
    · simp only [neg_add_cancel, mul_assoc]
    · intro j _ hj
      rw [diagonalAt_of_ne_zero fun h => hj (eq_neg_of_add_eq_zero_left h), zero_mul, mul_zero]
    · intro h
      exact absurd (mem_univ _) h
  calc ∑ j : Fin 12, unmixingAt j * (mix s).get (j + q)
    _ = ∑ j : Fin 12, (unmixingAt j * ∑ i : Fin 12, circulantAt i * s.get (i + (j + q)) +
          unmixingAt j * (diagonalAt (j + q) * s.get (j + q))) :=
      sum_congr rfl fun j _ => by rw [get_mix, mul_add]
    _ = _ := by rw [sum_add_distrib, hcirculant, hdiagonal]

/-- The linear layer loses nothing. -/
theorem mix_injective : Function.Injective mix := by
  intro s t h
  have hunmix (q : Fin 12) : s.get q + unmixingAt (-q) * diagonalAt 0 * s.get 0 =
      t.get q + unmixingAt (-q) * diagonalAt 0 * t.get 0 := by
    rw [← sum_unmixing_mix, ← sum_unmixing_mix, h]
  -- At zero the equation is about the first elements alone, and then they cancel.
  have hfirst : s.get 0 = t.get 0 := by
    have h0 := hunmix 0
    rw [neg_zero] at h0
    refine mul_left_cancel₀ unmixing_zero_ne ?_
    linear_combination h0
  refine Vector.ext fun i hi => ?_
  have hi' := hunmix ⟨i, hi⟩
  rw [hfirst] at hi'
  exact add_right_cancel hi'

end Poseidon

end TraceCommit
