import TraceCommit.Kernel.Registry
import TraceCommit.Proofs.Field.Residue

/-!
# What Registers Compute

Lane by lane, the vector arithmetic is the arithmetic of single words. This
holds for every word a lane can contain, canonical or not, because both sides
do the same steps modulo `2 ^ 64`; only the way they find out about carries and
borrows differs.

The narrow registers compare signed numbers. Flipping the sign bit of both
sides adds `2 ^ 63` to both, which carries the unsigned order into the signed
one. The answer is a lane of ones or zeros, and cut to its low half it is the
correction itself. The wide registers compare unsigned numbers into mask bits.

## Theorems

* `Lanes.getElem_mulWide`: A lane of the wide product is the product of lanes.
* `Avx2.getElem_add`, `Avx2.getElem_sub`, `Avx2.getElem_mul`: The four-lane
  arithmetic.
* `Avx512.getElem_add`, `Avx512.getElem_sub`, `Avx512.getElem_mul`: The
  eight-lane arithmetic.
-/

namespace TraceCommit

/-- Choosing what to add is choosing between the sums. -/
theorem add_ite_lowMask (c : Prop) [Decidable c] (x : UInt64) :
    x + (if c then lowMask else 0) = if c then x + lowMask else x := by
  split
  · rfl
  · exact UInt64.add_zero x

/-- Choosing what to subtract is choosing between the differences. -/
theorem sub_ite_lowMask (c : Prop) [Decidable c] (x : UInt64) :
    x - (if c then lowMask else 0) = if c then x - lowMask else x := by
  split
  · rfl
  · exact UInt64.sub_zero x

/-- A wrapped sum is smaller than both summands, or than neither. -/
theorem add_lt_left_iff_right (x y : UInt64) : x + y < y ↔ x + y < x := by
  have hx := x.toNat_lt
  have hy := y.toNat_lt
  rw [UInt64.lt_iff_toNat_lt, UInt64.lt_iff_toNat_lt, UInt64.toNat_add]
  omega

/-- Subtracting `2 ^ 32 - 1` is adding the modulus. -/
theorem sub_lowMask_eq (x : UInt64) : x - lowMask = x + modulus := by
  have hx := x.toNat_lt
  rw [← UInt64.toNat_inj, UInt64.toNat_sub, UInt64.toNat_add, toNat_lowMask, toNat_modulus]
  omega

/-- Subtracting the modulus is adding `2 ^ 32 - 1`. -/
theorem sub_modulus_eq (x : UInt64) : x - modulus = x + lowMask := by
  have hx := x.toNat_lt
  rw [← UInt64.toNat_inj, UInt64.toNat_sub, UInt64.toNat_add, toNat_lowMask, toNat_modulus]
  omega

/-- The product with `2 ^ 32 - 1` by a shift and a difference. -/
theorem shiftLeft_half_sub_self (x : UInt64) : (x <<< 32) - x = x * lowMask := by
  have hx := x.toNat_lt
  have h32 : (32 : UInt64).toNat % 64 = 32 := rfl
  rw [← UInt64.toNat_inj, UInt64.toNat_sub, UInt64.toNat_mul, UInt64.toNat_shiftLeft, h32,
    Nat.shiftLeft_eq, toNat_lowMask]
  omega

/-- The high half of a word has no bits above its mask. -/
theorem shiftRight_half_and_lowMask (x : UInt64) : (x >>> 32) &&& lowMask = x >>> 32 := by
  have hx := x.toNat_lt
  rw [← UInt64.toNat_inj, Wide.toNat_and_lowMask, Wide.toNat_shiftRight_half]
  omega

/-- As a signed number, a word with its sign bit flipped is lower by `2 ^ 63`. -/
theorem toInt_toInt64_flip (x : UInt64) :
    (x ^^^ 0x8000000000000000).toInt64.toInt = (x.toNat : Int) - 9223372036854775808 := by
  have hx := x.toNat_lt
  have hflip : (x ^^^ 0x8000000000000000).toNat = x.toNat ^^^ 2 ^ 63 := UInt64.toNat_xor _ _
  -- Flipping touches no digit but the highest.
  have hlow : (x.toNat ^^^ 2 ^ 63) % 2 ^ 63 = x.toNat % 2 ^ 63 := by
    rw [Nat.xor_mod_two_pow, Nat.mod_self, Nat.xor_zero]
  have hhigh : (x.toNat ^^^ 2 ^ 63) / 2 ^ 63 = (x.toNat / 2 ^ 63) ^^^ 1 := by
    rw [Nat.xor_div_two_pow, Nat.div_self (Nat.two_pow_pos 63)]
  rw [← hflip] at hlow hhigh
  -- The highest digit is zero or one, and decides the sign of the result.
  have hbit : x.toNat / 2 ^ 63 = 0 ∨ x.toNat / 2 ^ 63 = 1 := by omega
  change (x ^^^ 0x8000000000000000).toBitVec.toInt = _
  rw [BitVec.toInt_eq_toNat_cond]
  change (if 2 * (x ^^^ 0x8000000000000000).toNat < 2 ^ 64
    then ((x ^^^ 0x8000000000000000).toNat : Int)
    else ((x ^^^ 0x8000000000000000).toNat : Int) - (2 ^ 64 : Nat)) = _
  rcases hbit with h | h
  · rw [h, Nat.zero_xor] at hhigh
    rw [if_neg (by omega)]
    omega
  · rw [h, Nat.xor_self] at hhigh
    rw [if_pos (by omega)]
    omega

/-- Flipping the sign bit carries the unsigned order into the signed one. -/
theorem toInt64_flip_lt_iff (x y : UInt64) :
    (x ^^^ 0x8000000000000000).toInt64 < (y ^^^ 0x8000000000000000).toInt64 ↔ x < y := by
  rw [Int64.lt_iff_toInt_lt, toInt_toInt64_flip, toInt_toInt64_flip, UInt64.lt_iff_toNat_lt]
  omega

namespace Lanes

variable {n : Nat} (a b : Lanes n) (i : Nat) (hi : i < n)

@[simp] theorem getElem_splat (w : UInt64) : (splat w : Lanes n)[i] = w :=
  Vector.getElem_replicate hi

@[simp] theorem getElem_add : (add a b)[i] = a[i] + b[i] := Vector.getElem_zipWith hi

@[simp] theorem getElem_sub : (sub a b)[i] = a[i] - b[i] := Vector.getElem_zipWith hi

@[simp] theorem getElem_mulLow : (mulLow a b)[i] = (a[i] &&& lowMask) * (b[i] &&& lowMask) :=
  Vector.getElem_zipWith hi

@[simp] theorem getElem_and : (and a b)[i] = a[i] &&& b[i] := Vector.getElem_zipWith hi

@[simp] theorem getElem_or : (or a b)[i] = a[i] ||| b[i] := Vector.getElem_zipWith hi

@[simp] theorem getElem_xor : (xor a b)[i] = a[i] ^^^ b[i] := Vector.getElem_zipWith hi

@[simp] theorem getElem_shiftLeftHalf : a.shiftLeftHalf[i] = a[i] <<< 32 :=
  Vector.getElem_map _ hi

@[simp] theorem getElem_shiftRightHalf : a.shiftRightHalf[i] = a[i] >>> 32 :=
  Vector.getElem_map _ hi

@[simp] theorem getElem_greaterSigned : (greaterSigned a b)[i] =
    if b[i].toInt64 < a[i].toInt64 then 0xffffffffffffffff else 0 := Vector.getElem_zipWith hi

@[simp] theorem getElem_blend (mask : LaneMask n) :
    (blend mask a b)[i] = if mask[i] then b[i] else a[i] := by
  unfold blend
  rw [Vector.getElem_zipWith, Vector.getElem_zipWith]

@[simp] theorem getElem_lessMask : (lessMask a b)[i] = decide (a[i] < b[i]) :=
  Vector.getElem_zipWith hi

@[simp] theorem getElem_atLeastMask : (atLeastMask a b)[i] = decide (b[i] ≤ a[i]) :=
  Vector.getElem_zipWith hi

/-- A lane of the wide product is the double-word product of the lanes. -/
theorem getElem_mulWide :
    (⟨(mulWide a b).1[i], (mulWide a b).2[i]⟩ : Wide) = Wide.product a[i] b[i] := by
  unfold mulWide Wide.product
  simp only [getElem_add, getElem_or, getElem_and, getElem_shiftLeftHalf, getElem_shiftRightHalf,
    getElem_mulLow, getElem_splat, shiftRight_half_and_lowMask]

end Lanes

namespace Avx2

variable (a b : Register) (i : Nat) (hi : i < 4)

@[simp] theorem getElem_epsilon : epsilon[i] = lowMask := Lanes.getElem_splat i hi lowMask

@[simp] theorem getElem_lessThan :
    (lessThan a b)[i] = if a[i] < b[i] then 0xffffffffffffffff else 0 := by
  unfold lessThan flipSign
  rw [Lanes.getElem_greaterSigned, Lanes.getElem_xor, Lanes.getElem_xor, Lanes.getElem_splat]
  simp only [toInt64_flip_lt_iff]

/-- The answer of a comparison, cut to its low half, is the correction. -/
theorem ones_and_lowMask (c : Prop) [Decidable c] :
    (if c then 0xffffffffffffffff else 0) &&& lowMask = if c then lowMask else 0 := by
  split
  · rfl
  · rfl

@[simp] theorem getElem_canonicalize : (canonicalize a)[i] = Word.canonicalize a[i] := by
  -- The comparison is strict, so it is made with the number below the modulus.
  have hlt : (0xffffffff00000000 ^^^ 0x8000000000000000 : UInt64).toInt64 <
      (a[i] ^^^ 0x8000000000000000).toInt64 ↔ modulus ≤ a[i] := by
    have hmodulus := toNat_modulus
    have hbelow : (0xffffffff00000000 : UInt64).toNat = 18446744069414584320 := rfl
    rw [toInt64_flip_lt_iff, UInt64.lt_iff_toNat_lt, UInt64.le_iff_toNat_le]
    omega
  unfold canonicalize flipSign Word.canonicalize
  simp only [Lanes.getElem_add, Lanes.getElem_and, Lanes.getElem_greaterSigned, Lanes.getElem_xor,
    Lanes.getElem_splat, getElem_epsilon, ones_and_lowMask, add_ite_lowMask, hlt, sub_modulus_eq]

/-- A lane of the sum is the sum of the lanes. -/
theorem getElem_add : (add a b)[i] = Word.add a[i] b[i] := by
  unfold add Word.add
  simp only [getElem_canonicalize, Lanes.getElem_add, Lanes.getElem_and, getElem_lessThan,
    getElem_epsilon, ones_and_lowMask, add_ite_lowMask]

/-- A lane of the difference is the difference of the lanes. -/
theorem getElem_sub : (sub a b)[i] = Word.sub a[i] b[i] := by
  unfold sub Word.sub
  simp only [Lanes.getElem_sub, Lanes.getElem_and, getElem_lessThan, getElem_epsilon,
    ones_and_lowMask, sub_ite_lowMask]

/-- A lane of the reduction is the reduction of the lanes. The carry is read off
    the other summand. -/
theorem getElem_reduce : (reduce a b)[i] = Word.reduce ⟨a[i], b[i]⟩ := by
  unfold reduce Word.reduce
  simp only [getElem_canonicalize, Lanes.getElem_add, Lanes.getElem_sub, Lanes.getElem_and,
    Lanes.getElem_shiftRightHalf, Lanes.getElem_shiftLeftHalf, getElem_lessThan, getElem_epsilon,
    ones_and_lowMask, add_ite_lowMask, sub_ite_lowMask, shiftLeft_half_sub_self]
  exact congrArg Word.canonicalize (if_congr (add_lt_left_iff_right _ _) rfl rfl)

/-- A lane of the product is the product of the lanes. -/
theorem getElem_mul : (mul a b)[i] = Word.mul a[i] b[i] := by
  change (reduce (Lanes.mulWide a b).1 (Lanes.mulWide a b).2)[i] = _
  rw [getElem_reduce, Lanes.getElem_mulWide]
  rfl

end Avx2

namespace Avx512

variable (a b : Register) (i : Nat) (hi : i < 8)

@[simp] theorem getElem_epsilon : epsilon[i] = lowMask := Lanes.getElem_splat i hi lowMask

@[simp] theorem getElem_order : order[i] = modulus := Lanes.getElem_splat i hi modulus

@[simp] theorem getElem_maskAdd (source : Register) (mask : LaneMask 8) :
    (Lanes.maskAdd source mask a b)[i] = if mask[i] then a[i] + b[i] else source[i] := by
  unfold Lanes.maskAdd
  rw [Lanes.getElem_blend, Lanes.getElem_add]

@[simp] theorem getElem_maskSub (source : Register) (mask : LaneMask 8) :
    (Lanes.maskSub source mask a b)[i] = if mask[i] then a[i] - b[i] else source[i] := by
  unfold Lanes.maskSub
  rw [Lanes.getElem_blend, Lanes.getElem_sub]

@[simp] theorem getElem_canonicalize : (canonicalize a)[i] = Word.canonicalize a[i] := by
  unfold canonicalize Word.canonicalize
  simp only [getElem_maskSub, Lanes.getElem_atLeastMask, getElem_order, decide_eq_true_eq]

/-- A lane of the sum is the sum of the lanes. -/
theorem getElem_add : (add a b)[i] = Word.add a[i] b[i] := by
  unfold add Word.add
  simp only [getElem_canonicalize, getElem_maskAdd, Lanes.getElem_add, Lanes.getElem_lessMask,
    getElem_epsilon, decide_eq_true_eq]

/-- A lane of the difference is the difference of the lanes. -/
theorem getElem_sub : (sub a b)[i] = Word.sub a[i] b[i] := by
  unfold sub Word.sub
  simp only [getElem_maskAdd, Lanes.getElem_sub, Lanes.getElem_lessMask, getElem_order,
    decide_eq_true_eq, sub_lowMask_eq]

/-- A lane of the reduction is the reduction of the lanes. The carry is read off
    the other summand. -/
theorem getElem_reduce : (reduce a b)[i] = Word.reduce ⟨a[i], b[i]⟩ := by
  unfold reduce Word.reduce
  simp only [getElem_canonicalize, getElem_maskAdd, getElem_maskSub, Lanes.getElem_add,
    Lanes.getElem_sub, Lanes.getElem_and, Lanes.getElem_shiftRightHalf,
    Lanes.getElem_shiftLeftHalf, Lanes.getElem_lessMask, getElem_epsilon, decide_eq_true_eq,
    shiftLeft_half_sub_self]
  exact congrArg Word.canonicalize (if_congr (add_lt_left_iff_right _ _) rfl rfl)

/-- A lane of the product is the product of the lanes. -/
theorem getElem_mul : (mul a b)[i] = Word.mul a[i] b[i] := by
  change (reduce (Lanes.mulWide a b).1 (Lanes.mulWide a b).2)[i] = _
  rw [getElem_reduce, Lanes.getElem_mulWide]
  rfl

end Avx512

end TraceCommit
