import TraceCommit.Proofs.Field.Ring

/-!
# Arithmetic That Does Not Overflow

The operations on words, step by step, in arithmetic that reports an overflow.
None is ever reported. A sum that has wrapped is so far below `2 ^ 64` that the
correction fits, a difference that has borrowed is so far above zero that the
correction can be taken off, and the folded part is a product of two halves of a
word. The reduction needs no assumption for that, the operations only that their
operands are canonical. What is computed is the word that the steps without
checks compute, the representative of the result.

## Main definitions

* `Element.residueEquiv`: Elements and residues are one field.
* `Element.ComputesResidues`: The operations are those of integers modulo `p`.
* `Element.NeverOverflows`: No checked step of the operations is refused.

## Theorems

* `Word.addChecked_eq`, `Word.subChecked_eq`, `Word.negChecked_eq`,
  `Word.mulChecked_eq`: The operations on canonical words.
* `Word.reduceChecked_eq`: The reduction of any double word.
* `Element.mul_val_eq_one_iff`: Inverses by their representatives.
* `reduction_exact`: Every number of 128 bits is reduced to its remainder.
* `element_arithmetic_exact`: What the operations on elements compute.
-/

namespace TraceCommit

namespace Word

theorem checkedMul_carry (p : Prop) [Decidable p] :
    Checked.mul (if p then 1 else 0) lowMask = .ok (if p then lowMask else 0) := by
  by_cases h : p
  · rw [if_pos h, if_pos h]
    exact if_pos (by decide)
  · rw [if_neg h, if_neg h]
    exact if_pos (by decide)

theorem checkedMul_comm (a b : UInt64) : Checked.mul a b = Checked.mul b a := by
  unfold Checked.mul
  rw [Nat.mul_comm, UInt64.mul_comm]

/-- The last step of a sum and of a reduction. -/
theorem checkedSub_modulus (x : UInt64) :
    (if modulus ≤ x then Checked.sub x modulus else return x) = .ok (canonicalize x) := by
  unfold canonicalize Checked.sub
  by_cases h : modulus ≤ x
  · simp only [if_pos h]
  · simp only [if_neg h]
    rfl

/-- A sum that has wrapped has room for its correction. -/
theorem checkedAdd_carry {x y : UInt64} (hy : y.toNat ≤ 18446744069414584320) :
    Checked.add (x + y) (if x + y < x then lowMask else 0) =
      .ok (if x + y < x then x + y + lowMask else x + y) := by
  have hx := x.toNat_lt
  have hsum := (x + y).toNat_lt
  have hs : UInt64.size = 18446744073709551616 := rfl
  unfold Checked.add
  by_cases hcarry : x + y < x
  · have hwrapped : (x + y).toNat + 18446744073709551616 = x.toNat + y.toNat := by
      rw [UInt64.lt_iff_toNat_lt, UInt64.toNat_add] at hcarry
      rw [UInt64.toNat_add]
      omega
    rw [if_pos hcarry, if_pos hcarry, if_pos (by rw [toNat_lowMask]; omega)]
  · rw [if_neg hcarry, if_neg hcarry, if_pos (by rw [UInt64.toNat_zero]; omega), UInt64.add_zero]

/-- A difference that has borrowed has the correction to spare. -/
theorem checkedSub_borrow {x y : UInt64} (hborrow : x < y) (hy : y.toNat ≤ 4294967295) :
    Checked.sub (x - y) lowMask = .ok (x - y - lowMask) := by
  have hroom : lowMask ≤ x - y := by
    rw [UInt64.lt_iff_toNat_lt] at hborrow
    rw [UInt64.le_iff_toNat_le, UInt64.toNat_sub, toNat_lowMask]
    omega
  exact if_pos hroom

/-- The end of a sum, and of a reduction: the correction and one subtraction. -/
theorem checkedSum_eq {x y : UInt64} (hy : y.toNat ≤ 18446744069414584320) :
    (do
      let sum ← Checked.add (x + y) (← Checked.mul (if x + y < x then 1 else 0) lowMask)
      if modulus ≤ sum then Checked.sub sum modulus else return sum) =
      .ok (canonicalize (if x + y < x then x + y + lowMask else x + y)) := by
  rw [checkedMul_carry, ok_bind, checkedAdd_carry hy, ok_bind]
  exact checkedSub_modulus _

theorem addChecked_eq (a : UInt64) {b : UInt64} (hb : b < modulus) :
    addChecked a b = .ok (add a b) := by
  rw [lt_modulus_iff] at hb
  exact checkedSum_eq (Nat.le_of_lt_succ hb)

theorem subChecked_eq (a b : UInt64) : subChecked a b = .ok (sub a b) := by
  unfold subChecked sub
  rw [checkedMul_carry]
  by_cases h : a < b
  · rw [if_pos h, if_pos h]
    rfl
  · rw [if_neg h, if_neg h]
    show Except.ok (a - b - 0) = _
    rw [UInt64.sub_zero]

theorem negChecked_eq {a : UInt64} (ha : a < modulus) : negChecked a = .ok (neg a) := by
  unfold negChecked neg Checked.sub
  by_cases h0 : a = 0
  · rw [if_pos h0, if_pos h0]
    rfl
  · rw [if_neg h0, if_neg h0, if_pos (UInt64.le_of_lt ha)]

/-- No step of the reduction is refused, whatever is reduced. -/
theorem reduceChecked_eq (x : Wide) : reduceChecked x = .ok (reduce x) := by
  have htop := Wide.toNat_shiftRight_half x.hi
  have hmiddle := Wide.toNat_and_lowMask x.hi
  have hhi := x.hi.toNat_lt
  have hfolded : ((x.hi &&& lowMask) * lowMask).toNat = (x.hi &&& lowMask).toNat * 4294967295 :=
    Wide.toNat_mul_half (by omega) (by decide)
  have hproduct : Checked.mul (x.hi &&& lowMask) lowMask = .ok ((x.hi &&& lowMask) * lowMask) :=
    if_pos (by rw [toNat_lowMask, UInt64.size]; omega)
  have hsum (difference : UInt64) := checkedSum_eq (x := difference)
    (y := (x.hi &&& lowMask) * lowMask) (by omega)
  simp only [reduceChecked, reduce, hproduct, checkedMul_comm lowMask]
  by_cases hborrow : x.lo < x.hi >>> 32
  · rw [if_pos hborrow, if_pos hborrow, checkedSub_borrow hborrow (by omega), ok_bind, ok_bind]
    exact hsum _
  · rw [if_neg hborrow, if_neg hborrow, pure_bind, ok_bind]
    exact hsum _

theorem mulChecked_eq (a b : UInt64) : mulChecked a b = .ok (mul a b) :=
  reduceChecked_eq _

end Word

/-- Every double word is reduced to its remainder, and none of the steps that are
    checked is refused: not the subtraction after a borrow, not the product of the
    middle part, not the addition after a carry and not the last subtraction. The
    double words are all the numbers of 128 bits. -/
theorem reduction_exact :
    (∀ x : Wide, Word.reduceChecked x = .ok (Word.reduce x) ∧
      (Word.reduce x).toNat = x.toNat % fieldOrder) ∧
      ∀ n : Fin (2 ^ 128), ∃ x : Wide, x.toNat = n := by
  refine ⟨fun x => ⟨Word.reduceChecked_eq x, Word.toNat_reduce x⟩, fun n => ?_⟩
  exact ⟨.ofNat n, Wide.toNat_ofNat n.isLt⟩

/-- A borrow and a carry in one reduction. -/
example : Word.reduceChecked ⟨0xffffffffffffffff, 0xfffffffe⟩ = .ok 0xfffffffe00000000 := by
  decide

namespace Element

theorem toZMod_surjective : Function.Surjective toZMod := by
  intro z
  have hz := ZMod.val_lt z
  have hword : (UInt64.ofNat z.val).toNat = z.val :=
    UInt64.toNat_ofNat_of_lt' (Nat.lt_trans hz (by decide))
  refine ⟨⟨UInt64.ofNat z.val, lt_modulus_iff.mpr (by rwa [hword])⟩, ?_⟩
  simp only [toZMod, hword, ZMod.natCast_val, ZMod.cast_id', id_eq]

/-- Elements are the residues modulo `p`, with the same sums and products. -/
noncomputable def residueEquiv : Element ≃+* ZMod fieldOrder :=
  RingEquiv.ofBijective residueHom ⟨toZMod_injective, toZMod_surjective⟩

/-- The representatives of results are the remainders of the same operations on
    integers. -/
structure ComputesResidues (a b : Element) : Prop where
  add : ((a + b).val.toNat : ℤ) = (a.val.toNat + b.val.toNat) % fieldOrder
  sub : ((a - b).val.toNat : ℤ) = (a.val.toNat - b.val.toNat) % fieldOrder
  neg : ((-a).val.toNat : ℤ) = -a.val.toNat % fieldOrder
  mul : ((a * b).val.toNat : ℤ) = a.val.toNat * b.val.toNat % fieldOrder
  double : (a.double.val.toNat : ℤ) = 2 * a.val.toNat % fieldOrder
  square : (a.square.val.toNat : ℤ) = a.val.toNat ^ 2 % fieldOrder

/-- The same representatives come out of the arithmetic that reports overflows,
    and the double word of a product is the whole product. -/
structure NeverOverflows (a b : Element) : Prop where
  add : Word.addChecked a.val b.val = .ok (a + b).val
  sub : Word.subChecked a.val b.val = .ok (a - b).val
  neg : Word.negChecked a.val = .ok (-a).val
  mul : Word.mulChecked a.val b.val = .ok (a * b).val
  product : (Wide.product a.val b.val).toNat = a.val.toNat * b.val.toNat

theorem toNat_val_add (a b : Element) :
    (a + b).val.toNat = (a.val.toNat + b.val.toNat) % fieldOrder :=
  Word.toNat_add a.val b.isCanonical

theorem toNat_val_mul (a b : Element) :
    (a * b).val.toNat = a.val.toNat * b.val.toNat % fieldOrder :=
  Word.toNat_mul a.val b.val

theorem computesResidues (a b : Element) : ComputesResidues a b where
  add := by rw [toNat_val_add]; norm_cast
  sub := by
    have hb := b.toNat_val_lt
    have hsub : (a - b).val.toNat = _ := Word.toNat_sub a.isCanonical b.isCanonical
    rw [hsub, fieldOrder] at *
    omega
  neg := by
    have ha := a.toNat_val_lt
    have hneg : (-a).val.toNat = _ := Word.toNat_neg a.isCanonical
    rw [hneg, fieldOrder] at *
    omega
  mul := by rw [toNat_val_mul]; norm_cast
  double := by rw [Element.double, toNat_val_add, two_mul]; norm_cast
  square := by rw [Element.square, toNat_val_mul, pow_two]; norm_cast

theorem neverOverflows (a b : Element) : NeverOverflows a b where
  add := Word.addChecked_eq a.val b.isCanonical
  sub := Word.subChecked_eq a.val b.val
  neg := Word.negChecked_eq a.isCanonical
  mul := Word.mulChecked_eq a.val b.val
  product := Wide.toNat_product a.val b.val

theorem toNat_val_inj {a b : Element} : a.val.toNat = b.val.toNat ↔ a = b := by
  rw [UInt64.toNat_inj]
  cases a
  cases b
  simp

theorem mul_val_eq_one_iff {a b : Element} :
    a.val.toNat * b.val.toNat % fieldOrder = 1 ↔ a * b = 1 := by
  rw [← toNat_val_mul]
  exact toNat_val_inj (b := 1)

end Element

/-- The modulus is a prime. The operations on elements, also where they replace
    an operand by their result, give the canonical representatives of the same
    operations on integers modulo it, and no step of them overflows. Inversion
    fails on zero alone, as a division by zero, and finds the element whose product
    with the given one is one. So elements are the field of integers modulo `p`. -/
theorem element_arithmetic_exact :
    (fieldOrder = 2 ^ 64 - 2 ^ 32 + 1 ∧ fieldOrder.Prime) ∧
      (∀ a b : Element, a.ComputesResidues b ∧ a.NeverOverflows b) ∧
      (∀ a : Element, (a = 0 ∧ a.inverse = .error .divisionByZero) ∨
        (a ≠ 0 ∧ ∃ b, a.inverse = .ok b ∧ a.val.toNat * b.val.toNat % fieldOrder = 1)) ∧
      ∃ e : Element ≃+* ZMod fieldOrder, ∀ a : Element, e a = (a.val.toNat : ZMod fieldOrder) := by
  refine ⟨⟨rfl, fieldOrder_prime⟩, fun a b => ⟨a.computesResidues b, a.neverOverflows b⟩,
    fun a => ?_, Element.residueEquiv, fun _ => rfl⟩
  by_cases h0 : a = 0
  · exact Or.inl ⟨h0, by rw [Element.inverse_eq, if_pos h0]⟩
  · refine Or.inr ⟨h0, a⁻¹, by rw [Element.inverse_eq, if_neg h0], ?_⟩
    exact Element.mul_val_eq_one_iff.mpr (mul_inv_cancel₀ h0)

end TraceCommit
