import TraceCommit.Proofs.Field.Checked
import TraceCommit.Proofs.Hash.LinearLayer

/-!
# The Linear Layer as a Matrix

The matrix that the linear layer multiplies states by, entry for entry, and the
arithmetic on the way. A row is accumulated without reducing anything in between.
The sum of its thirteen products fits a double word, and a sum that fits has only
partial sums that fit, so no addition is ever refused and one reduction at the end
leaves the remainder of the exact sum.

In the field the remainder is the sum itself. So the layer is linear, although it
works on representatives, which are not.

## Main definitions

* `Poseidon.matrixEntry`: The matrix, by row and column.
* `Poseidon.MultipliesRow`: How a row of the product comes about.

## Theorems

* `Wide.foldlM_addChecked`: A sum that fits is accumulated without a refusal.
* `Poseidon.mixRowChecked_eq`: So are the rows of the layer.
* `Poseidon.toNat_mixRow_eq_sum`: An accumulator holds a row times the state.
* `Poseidon.get_mix_eq_sum`: The layer multiplies by the matrix.
* `Poseidon.mix_add_mul`: It is linear.
* `poseidon_mix_multiplies`: All of it, for every state.
-/

namespace TraceCommit

open Finset

namespace Wide

theorem addChecked_eq {a b : Wide} (h : a.toNat + b.toNat < size) :
    a.addChecked b = .ok (a.add b) :=
  if_pos h

/-- If all that is added fits, then so does what has been added at any time. -/
theorem foldlM_addChecked {ι : Type} (term : ι → Wide) (items : List ι) : ∀ start : Wide,
    start.toNat + (items.map fun i => (term i).toNat).sum < size →
      items.foldlM (fun acc i => acc.addChecked (term i)) start =
        .ok (items.foldl (fun acc i => acc.add (term i)) start) := by
  induction items with
  | nil =>
      intro start _
      rfl
  | cons i rest ih =>
      intro start hfits
      rw [List.map_cons, List.sum_cons] at hfits
      have hstep : start.toNat + (term i).toNat < size := by omega
      -- The step is exact, so it leaves all the room that the rest needs.
      have hrest : (start.add (term i)).toNat + (rest.map fun i => (term i).toNat).sum < size := by
        rw [toNat_add hstep]
        omega
      rw [List.foldlM_cons, List.foldl_cons, addChecked_eq hstep, ok_bind]
      exact ih _ hrest

end Wide

namespace Poseidon

/-- No addition of a row is refused, whatever words the row is made of. -/
theorem mixRowChecked_eq (raw : Vector UInt64 12) (row : Fin 12) :
    mixRowChecked raw row = .ok (mixRow raw row) := by
  have hfits : (Wide.ofWord 0).toNat +
      ((List.finRange 12).map fun i => (circulantTerm raw row i).toNat).sum < Wide.size := by
    rw [← Fin.sum_univ_def, sum_circulantTerm, Wide.toNat_ofWord, UInt64.toNat_zero, Nat.zero_add]
    exact circulantSum_lt raw row
  have hpart := Wide.foldlM_addChecked (circulantTerm raw row) (List.finRange 12) _ hfits
  -- The row without checks counts its coefficients instead of listing them.
  have hlisted : circulantPart raw row = (List.finRange 12).foldl
      (fun acc i => acc.add (circulantTerm raw row i)) (.ofWord 0) :=
    Nat.fold_eq_finRange_foldl _ _ _
  calc mixRowChecked raw row
    _ = (.ok (circulantPart raw row) >>= fun acc : Wide =>
          acc.addChecked (.product (raw.get row) (diagonal.get row))) := by
      rw [hlisted, ← hpart]
      rfl
    _ = .ok (mixRow raw row) := by
      rw [ok_bind, mixRow_eq]
      exact Wide.addChecked_eq (toNat_circulantPart_add_lt raw row)

/-- The matrix of the linear layer. Every row is the first row of the circulant part
    turned so that it starts on the diagonal, and the diagonal is added. -/
def matrixEntry (r c : Fin 12) : Nat :=
  (circulant.get (c - r)).toNat + if c = r then (diagonal.get r).toNat else 0

theorem matrixEntry_add (r i : Fin 12) : matrixEntry r (r + i) =
    (circulant.get i).toNat + if i = 0 then (diagonal.get r).toNat else 0 := by
  simp only [matrixEntry, add_sub_cancel_left, add_eq_left]

/-- An accumulator holds a row of the matrix times the words. -/
theorem toNat_mixRow_eq_sum (raw : Vector UInt64 12) (row : Fin 12) :
    (mixRow raw row).toNat = ∑ c : Fin 12, matrixEntry row c * (raw.get c).toNat := by
  have hcirculant : ∑ c : Fin 12, (circulant.get (c - row)).toNat * (raw.get c).toNat =
      circulantSum raw row := by
    -- Counted on from the diagonal, every row starts like the first one.
    rw [← Equiv.sum_comp (Equiv.addRight row)]
    refine sum_congr rfl fun i _ => ?_
    rw [Equiv.coe_addRight, add_sub_cancel_right, mul_comm]
  have hdiagonal : ∑ c : Fin 12, (if c = row then (diagonal.get row).toNat else 0) *
      (raw.get c).toNat = (raw.get row).toNat * (diagonal.get row).toNat := by
    simp only [ite_mul, zero_mul, sum_ite_eq', mem_univ, if_true]
    exact mul_comm _ _
  simp only [toNat_mixRow, matrixEntry, add_mul, sum_add_distrib, hcirculant, hdiagonal]

/-- The layer multiplies states by the matrix. -/
theorem get_mix_eq_sum (s : State) (r : Fin 12) :
    (mix s).get r = ∑ c : Fin 12, (matrixEntry r c : Element) * s.get c := by
  rw [get_mix_eq_ofWide, Element.ofWide_eq, toNat_mixRow_eq_sum]
  push_cast
  simp only [toNat_get_map_val, Element.natCast_toNat_val]

/-- The layer is linear. -/
theorem mix_add_mul (a b : State) (t : Element) : mix (a + t * b) = mix a + t * mix b := by
  have hentry (u v : State) (i : Fin 12) : (u + t * v).get i = u.get i + t * v.get i := by
    change (u + t * v)[i.val] = u[i.val] + t * v[i.val]
    rw [Vector.getElem_add, Vector.getElem_hmul]
  have hrow (r : Fin 12) : (mix (a + t * b)).get r = (mix a + t * mix b).get r := by
    calc (mix (a + t * b)).get r
      _ = ∑ c : Fin 12, (matrixEntry r c : Element) * (a.get c + t * b.get c) := by
        simp only [get_mix_eq_sum, hentry]
      _ = ∑ c : Fin 12, (matrixEntry r c : Element) * a.get c +
            t * ∑ c : Fin 12, (matrixEntry r c : Element) * b.get c := by
        simp only [mul_add, sum_add_distrib, mul_sum, mul_left_comm]
      _ = (mix a + t * mix b).get r := by
        rw [hentry, get_mix_eq_sum, get_mix_eq_sum]
  exact Vector.ext fun r hr => hrow ⟨r, hr⟩

/-- How row `r` of the product of the matrix with a state comes about. -/
structure MultipliesRow (s : State) (r : Fin 12) : Prop where
  /-- No addition is refused, -/
  accumulates : mixRowChecked (s.map Element.val) r = .ok (mixRow (s.map Element.val) r)
  /-- at the end the accumulator holds the product of the row with the state, -/
  whole : (mixRow (s.map Element.val) r).toNat =
    ∑ c : Fin 12, matrixEntry r c * (s.get c).val.toNat
  /-- no step of its reduction is refused, -/
  reduces : Word.reduceChecked (mixRow (s.map Element.val) r) = .ok ((mix s).get r).val
  /-- and the canonical remainder is what comes out. -/
  remainder : ((mix s).get r).val.toNat =
    (∑ c : Fin 12, matrixEntry r c * (s.get c).val.toNat) % fieldOrder
  isCanonical : ((mix s).get r).val < modulus

theorem multipliesRow (s : State) (r : Fin 12) : MultipliesRow s r := by
  have hwhole : (mixRow (s.map Element.val) r).toNat =
      ∑ c : Fin 12, matrixEntry r c * (s.get c).val.toNat := by
    simp only [toNat_mixRow_eq_sum, toNat_get_map_val]
  have hreduced : ((mix s).get r).val = Word.reduce (mixRow (s.map Element.val) r) :=
    congrArg Element.val (get_mix_eq_ofWide s r)
  refine ⟨mixRowChecked_eq _ r, hwhole, ?_, ?_, ((mix s).get r).isCanonical⟩
  · rw [hreduced, Word.reduceChecked_eq]
  · rw [hreduced, Word.toNat_reduce, hwhole]

end Poseidon

open Poseidon in
/-- The linear layer multiplies every state by the matrix whose row `r` holds the
    coefficients of the circulant part from the diagonal on, around the end, with the
    diagonal's coefficient added to the first of them. Its accumulators do not overflow
    on the way, and what comes out are the canonical remainders. So it is linear over
    the field. -/
theorem poseidon_mix_multiplies :
    (∀ r i : Fin 12, matrixEntry r (r + i) =
      (circulant.get i).toNat + if i = 0 then (diagonal.get r).toNat else 0) ∧
    (∀ (s : State) (r : Fin 12), MultipliesRow s r) ∧
      ∀ (a b : State) (t : Element), mix (a + t * b) = mix a + t * mix b :=
  ⟨matrixEntry_add, multipliesRow, mix_add_mul⟩

/-- A one in the second place picks the matrix's second column. -/
example : Poseidon.mix ((Vector.replicate 12 0).set 1 1) =
    #v[15, 17, 20, 34, 18, 39, 13, 13, 28, 2, 16, 41].map Element.ofWord := by
  decide +kernel

end TraceCommit
