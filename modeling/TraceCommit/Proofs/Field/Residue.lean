import TraceCommit.Field.Word
import Mathlib.Tactic.Ring

/-!
# Word Arithmetic as Arithmetic of Residues

What the operations on words compute, as numbers. A canonical word stands for
a residue modulo `p`, and each operation gives the canonical word of the
residue that the same operation on numbers would give.

The reduction of a double word is exact rather than approximate: with
`top` the highest 32 bits and `middle` the next 32, the number equals
`lo - top + middle * (2 ^ 32 - 1)` up to a multiple of `p`, because
`2 ^ 96 + 1 = p * (2 ^ 32 + 1)` and `2 ^ 64 = p + 2 ^ 32 - 1`. Each borrow or
carry moves the number by another multiple. Once the words are numbers this is
linear arithmetic.

## Main definitions

* `fieldOrder`: The modulus as a number.

## Theorems

* `Wide.toNat_product`: The double-word product is exact.
* `Word.toNat_add`, `Word.toNat_sub`, `Word.toNat_neg`, `Word.toNat_mul`: The
  operations are those of residues.
* `Word.toNat_reduce`: The reduction is the remainder.
-/

namespace TraceCommit

/-- The modulus as a number, which is how many elements the field has. -/
def fieldOrder : Nat := 18446744069414584321

theorem toNat_modulus_eq : modulus.toNat = fieldOrder := rfl

/-- A word is canonical when its number is below the modulus. -/
theorem lt_modulus_iff {x : UInt64} : x < modulus ↔ x.toNat < fieldOrder := by
  rw [UInt64.lt_iff_toNat_lt, toNat_modulus_eq]

namespace Wide

/-- The low half of a word is its remainder. -/
theorem toNat_and_lowMask (x : UInt64) : (x &&& lowMask).toNat = x.toNat % 4294967296 := by
  have hm : lowMask.toNat = 2 ^ 32 - 1 := rfl
  rw [UInt64.toNat_and, hm, Nat.and_two_pow_sub_one_eq_mod]

/-- The high half of a word is its quotient. -/
theorem toNat_shiftRight_half (x : UInt64) : (x >>> 32).toNat = x.toNat / 4294967296 := by
  rw [UInt64.toNat_shiftRight, Nat.shiftRight_eq_div_pow]
  rfl

/-- A half put above another one. -/
theorem toNat_or_shiftLeft_half {x y : UInt64} (hx : x.toNat < 4294967296) :
    (x ||| (y <<< 32)).toNat = x.toNat + y.toNat % 4294967296 * 4294967296 := by
  have hs : (y <<< 32).toNat = (y.toNat % 4294967296) <<< 32 := by
    rw [UInt64.toNat_shiftLeft, Nat.shiftLeft_eq, Nat.shiftLeft_eq]
    have h32 : (32 : UInt64).toNat % 64 = 32 := rfl
    rw [h32]
    omega
  rw [UInt64.toNat_or, hs, Nat.or_comm, ← Nat.shiftLeft_add_eq_or_of_lt (by simpa using hx),
    Nat.shiftLeft_eq]
  omega

/-- A product of two halves fits a word. -/
theorem toNat_mul_half {x y : UInt64} (hx : x.toNat < 4294967296) (hy : y.toNat < 4294967296) :
    (x * y).toNat = x.toNat * y.toNat := by
  -- The largest product of two halves is below `2 ^ 64`.
  have hxy : x.toNat * y.toNat ≤ 4294967295 * 4294967295 :=
    Nat.mul_le_mul (by omega) (by omega)
  rw [UInt64.toNat_mul]
  omega

/-- The sum of the four partial products by columns. Only a carry of the middle
    column goes up, and it is below three. -/
theorem toNat_columns {ll lh hl hh : UInt64}
    (hll : ll.toNat ≤ 4294967295 * 4294967295) (hlh : lh.toNat ≤ 4294967295 * 4294967295)
    (hhl : hl.toNat ≤ 4294967295 * 4294967295) (hhh : hh.toNat ≤ 4294967295 * 4294967295) :
    (⟨hh + (((ll >>> 32) + (lh &&& lowMask) + (hl &&& lowMask)) >>> 32) +
        ((lh >>> 32) + (hl >>> 32)),
      (ll &&& lowMask) ||| (((ll >>> 32) + (lh &&& lowMask) + (hl &&& lowMask)) <<< 32)⟩ :
        Wide).toNat =
      ll.toNat + (lh.toNat + hl.toNat) * 4294967296 + hh.toNat * UInt64.size := by
  have hs : UInt64.size = 18446744073709551616 := rfl
  -- The middle column sums three halves, so the sum itself does not wrap.
  have hmid : ((ll >>> 32) + (lh &&& lowMask) + (hl &&& lowMask)).toNat =
      ll.toNat / 4294967296 + lh.toNat % 4294967296 + hl.toNat % 4294967296 := by
    rw [UInt64.toNat_add, UInt64.toNat_add, toNat_shiftRight_half, toNat_and_lowMask,
      toNat_and_lowMask]
    omega
  have hlow : (ll &&& lowMask).toNat < 4294967296 := by
    rw [toNat_and_lowMask]
    omega
  -- With every part a number, the columns are linear arithmetic.
  unfold toNat
  rw [toNat_or_shiftLeft_half hlow, toNat_and_lowMask, hmid, UInt64.toNat_add, UInt64.toNat_add,
    UInt64.toNat_add, toNat_shiftRight_half, toNat_shiftRight_half, toNat_shiftRight_half, hmid, hs]
  omega

/-- The double-word product is exact. -/
theorem toNat_product (a b : UInt64) : (product a b).toNat = a.toNat * b.toNat := by
  have hs : UInt64.size = 18446744073709551616 := rfl
  -- A word is its two halves, each at most `2 ^ 32 - 1`.
  have half (x : UInt64) : (x &&& lowMask).toNat ≤ 4294967295 ∧ (x >>> 32).toNat ≤ 4294967295 ∧
      x.toNat = (x >>> 32).toNat * 4294967296 + (x &&& lowMask).toNat := by
    have hx := x.toNat_lt
    rw [toNat_and_lowMask, toNat_shiftRight_half]
    omega
  rcases half a with ⟨haLo, haHi, ha⟩
  rcases half b with ⟨hbLo, hbHi, hb⟩
  have hll := toNat_mul_half (Nat.lt_succ_of_le haLo) (Nat.lt_succ_of_le hbLo)
  have hlh := toNat_mul_half (Nat.lt_succ_of_le haLo) (Nat.lt_succ_of_le hbHi)
  have hhl := toNat_mul_half (Nat.lt_succ_of_le haHi) (Nat.lt_succ_of_le hbLo)
  have hhh := toNat_mul_half (Nat.lt_succ_of_le haHi) (Nat.lt_succ_of_le hbHi)
  -- The four partial products are exact, so their columns add up.
  have hcolumns := toNat_columns (hll ▸ Nat.mul_le_mul haLo hbLo)
    (hlh ▸ Nat.mul_le_mul haLo hbHi) (hhl ▸ Nat.mul_le_mul haHi hbLo)
    (hhh ▸ Nat.mul_le_mul haHi hbHi)
  rw [hll, hlh, hhl, hhh] at hcolumns
  unfold product
  rw [hcolumns, ha, hb, hs]
  ring

end Wide

namespace Word

/-- Canonicalizing takes the remainder. -/
theorem toNat_canonicalize (x : UInt64) : (canonicalize x).toNat = x.toNat % fieldOrder := by
  have hp : fieldOrder = 18446744069414584321 := rfl
  have hx := x.toNat_lt
  unfold canonicalize
  rw [hp]
  -- A word is below twice the modulus, so one subtraction is enough.
  split
  · rename_i h
    rw [UInt64.toNat_sub_of_le x modulus h, toNat_modulus]
    rw [UInt64.le_iff_toNat_le, toNat_modulus] at h
    omega
  · rename_i h
    rw [UInt64.le_iff_toNat_le, toNat_modulus] at h
    omega

/-- A wrapped sum lost `2 ^ 64`, and the correction by `2 ^ 32 - 1` makes that a
    multiple of the modulus. It cannot wrap again unless a summand is close to
    `2 ^ 64`. -/
theorem toNat_corrected {x y : UInt64} (hy : y.toNat ≤ 18446744069414584320) :
    (if x + y < x then x + y + lowMask else x + y).toNat % fieldOrder =
      (x.toNat + y.toNat) % fieldOrder := by
  have hp : fieldOrder = 18446744069414584321 := rfl
  have hx := x.toNat_lt
  rw [hp]
  by_cases hwrap : x.toNat + y.toNat < 18446744073709551616
  · -- Nothing wrapped, and nothing is added.
    have hsum : (x + y).toNat = x.toNat + y.toNat := by
      rw [UInt64.toNat_add]
      omega
    rw [if_neg (by rw [UInt64.lt_iff_toNat_lt]; omega), hsum]
  · -- The sum lost `2 ^ 64` and gains what that is worth.
    have hsum : (x + y).toNat = x.toNat + y.toNat - 18446744073709551616 := by
      rw [UInt64.toNat_add]
      omega
    rw [if_pos (by rw [UInt64.lt_iff_toNat_lt]; omega), UInt64.toNat_add, hsum, toNat_lowMask]
    omega

/-- The sum of canonical words is the sum of residues. -/
theorem toNat_add (a : UInt64) {b : UInt64} (hb : b < modulus) :
    (add a b).toNat = (a.toNat + b.toNat) % fieldOrder := by
  rw [lt_modulus_iff] at hb
  unfold add
  rw [toNat_canonicalize, toNat_corrected (Nat.le_of_lt_succ hb)]

/-- The difference of canonical words is the difference of residues. -/
theorem toNat_sub {a b : UInt64} (ha : a < modulus) (hb : b < modulus) :
    (sub a b).toNat = (a.toNat + (fieldOrder - b.toNat)) % fieldOrder := by
  have hp : fieldOrder = 18446744069414584321 := rfl
  rw [lt_modulus_iff, hp] at ha hb
  unfold sub
  rw [hp]
  -- A difference below zero wraps, which adds `2 ^ 64` instead of the modulus.
  split
  · rename_i h
    rw [UInt64.lt_iff_toNat_lt] at h
    rw [UInt64.toNat_sub, UInt64.toNat_sub, toNat_lowMask]
    omega
  · rename_i h
    rw [UInt64.lt_iff_toNat_lt] at h
    rw [UInt64.toNat_sub]
    omega

/-- The negation of a canonical word is the negation of its residue. -/
theorem toNat_neg {a : UInt64} (ha : a < modulus) :
    (neg a).toNat = (fieldOrder - a.toNat) % fieldOrder := by
  have hp : fieldOrder = 18446744069414584321 := rfl
  rw [lt_modulus_iff, hp] at ha
  unfold neg
  split
  · rename_i h
    rw [h]
    rfl
  · rename_i h
    -- Without zero the difference is canonical as it is.
    have hpos : a.toNat ≠ 0 := fun h0 => h (UInt64.toNat_inj.mp h0)
    rw [UInt64.toNat_sub, toNat_modulus, hp]
    omega

/-- The reduction of a double word is its remainder. -/
theorem toNat_reduce (x : Wide) : (reduce x).toNat = x.toNat % fieldOrder := by
  have hp : fieldOrder = 18446744069414584321 := rfl
  have hs : UInt64.size = 18446744073709551616 := rfl
  have hhi := x.hi.toNat_lt
  have hlo := x.lo.toNat_lt
  have htop := Wide.toNat_shiftRight_half x.hi
  have hmiddle := Wide.toNat_and_lowMask x.hi
  -- The product of the middle part stays a product of two halves.
  have hfolded : ((x.hi &&& lowMask) * lowMask).toNat = (x.hi &&& lowMask).toNat * 4294967295 :=
    Wide.toNat_mul_half (by omega) (by decide)
  unfold reduce Wide.toNat
  rw [toNat_canonicalize, hs]
  generalize x.hi >>> 32 = top at *
  generalize (x.hi &&& lowMask) * lowMask = folded at *
  generalize x.hi &&& lowMask = middle at *
  -- Subtracting the top part borrows at most once, and a borrow is one modulus.
  have hdifference : ∃ borrow ≤ 1, (if x.lo < top then x.lo - top - lowMask
      else x.lo - top).toNat + top.toNat = x.lo.toNat + borrow * 18446744069414584321 := by
    split
    · rename_i h
      rw [UInt64.lt_iff_toNat_lt] at h
      refine ⟨1, le_refl 1, ?_⟩
      rw [UInt64.toNat_sub, UInt64.toNat_sub, toNat_lowMask]
      omega
    · rename_i h
      rw [UInt64.lt_iff_toNat_lt] at h
      refine ⟨0, Nat.zero_le 1, ?_⟩
      rw [UInt64.toNat_sub]
      omega
  rcases hdifference with ⟨borrow, hborrow, hdifference⟩
  generalize (if x.lo < top then x.lo - top - lowMask else x.lo - top) = difference at *
  -- The number and the folded sum differ by a multiple of the modulus.
  have hnumber : (x.hi.toNat * 18446744073709551616 + x.lo.toNat) +
      borrow * 18446744069414584321 = (difference.toNat + folded.toNat) +
        (middle.toNat + top.toNat * 4294967297) * 18446744069414584321 := by
    omega
  have hmod : (x.hi.toNat * 18446744073709551616 + x.lo.toNat) % fieldOrder =
      (difference.toNat + folded.toNat) % fieldOrder := by
    rw [hp, ← Nat.add_mul_mod_self_right _ borrow, hnumber, Nat.add_mul_mod_self_right]
  -- Neither summand is close enough to `2 ^ 64` for a second wrap.
  rw [hmod]
  exact toNat_corrected (by omega)

/-- The product of words is the product of residues. -/
theorem toNat_mul (a b : UInt64) : (mul a b).toNat = a.toNat * b.toNat % fieldOrder := by
  unfold mul
  rw [toNat_reduce, Wide.toNat_product]

end Word

end TraceCommit
