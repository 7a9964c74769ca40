import TraceCommit.Word.Bits
import Mathlib.Data.Nat.ModEq
import Mathlib.Tactic.Ring

/-!
# Powers of Two and Reversed Digits

What the functions on bits compute, as numbers.

`reversal bits i` is the number whose `bits` binary digits are those of `i` in
reverse order. It is defined by moving the lowest digit to the top, which is
what a transform's butterflies follow, and `testBit_reversal` says the same
digit by digit, which is where its being an involution comes from.

## Main definitions

* `reversal`: The low digits of a number in reverse order.

## Theorems

* `log2Strict_two_pow`: The logarithm of a power of two.
* `isTwoPower_iff`: The numbers that are accepted as powers of two are those.
* `log2Ceil_le_iff`: The logarithm rounded up.
* `testBit_reversal`: The digits of a reversal.
* `reversal_reversal`: Reversing twice changes nothing.
* `reversal_mul_two_pow`: Zeros at the low end do not count.
* `Checked.shiftLeft_of_lt`, `Checked.shiftLeft_of_le`: What a left shift gives.
* `reverseBits_eq`: Reversal on words.
-/

namespace TraceCommit

theorem isTwoPower_two_pow (k : Nat) : IsTwoPower (2 ^ k) := by
  unfold IsTwoPower
  rw [Nat.log2_two_pow, Nat.one_shiftLeft]

/-- The numbers accepted as powers of two are the powers of two. -/
theorem isTwoPower_iff {n : Nat} : IsTwoPower n ↔ ∃ k, n = 2 ^ k := by
  constructor
  · intro h
    exact ⟨n.log2, by rw [← Nat.one_shiftLeft]; exact h.symm⟩
  · rintro ⟨k, rfl⟩
    exact isTwoPower_two_pow k

/-- The logarithm of a power of two. -/
theorem log2Strict_two_pow (k : Nat) : log2Strict (2 ^ k) = .ok k := by
  unfold log2Strict
  rw [if_pos (isTwoPower_two_pow k), Nat.log2_two_pow]

/-- The logarithm rounded up is the least exponent of a power that is no smaller. -/
theorem log2Ceil_le_iff {n k : Nat} : log2Ceil n ≤ k ↔ n ≤ 2 ^ k := by
  have hpos := Nat.two_pow_pos k
  unfold log2Ceil
  split
  · exact ⟨fun _ => by omega, fun _ => Nat.zero_le k⟩
  · rw [Nat.succ_le_iff, Nat.log2_lt (by omega)]
    omega

theorem log2Ceil_two_pow (k : Nat) : log2Ceil (2 ^ k) = k := by
  refine Nat.le_antisymm (log2Ceil_le_iff.mpr (Nat.le_refl _)) ?_
  have hle := log2Ceil_le_iff.mp (Nat.le_refl (log2Ceil (2 ^ k)))
  exact (Nat.pow_le_pow_iff_right (by omega)).mp hle

/-- The number whose `bits` binary digits are those of the given one in reverse
    order. -/
def reversal : (bits : Nat) → Nat → Nat
  | 0, _ => 0
  | bits + 1, i => 2 ^ bits * (i % 2) + reversal bits (i / 2)

theorem reversal_lt (bits : Nat) : ∀ i, reversal bits i < 2 ^ bits := by
  induction bits with
  | zero =>
      intro i
      exact Nat.one_pos
  | succ bits ih =>
      intro i
      have hrest := ih (i / 2)
      -- The lowest digit moves to the top, above what the rest can reach.
      have htop : 2 ^ bits * (i % 2) ≤ 2 ^ bits * 1 := Nat.mul_le_mul_left _ (by omega)
      unfold reversal
      rw [pow_succ]
      omega

/-- The digits of a reversal, counted from the other end. -/
theorem testBit_reversal (bits : Nat) : ∀ i j,
    (reversal bits i).testBit j = (decide (j < bits) && i.testBit (bits - 1 - j)) := by
  induction bits with
  | zero =>
      intro i j
      rw [reversal, Nat.zero_testBit, decide_eq_false (Nat.not_lt_zero j), Bool.false_and]
  | succ bits ih =>
      intro i j
      rw [reversal, Nat.testBit_two_pow_mul_add _ (reversal_lt bits (i / 2))]
      -- The lowest digit becomes the highest; the others reverse below it.
      rcases Nat.lt_trichotomy j bits with h | h | h
      · have hdigit : bits + 1 - 1 - j = bits - 1 - j + 1 := by omega
        rw [if_pos h, ih, Nat.testBit_div_two, hdigit, decide_eq_true h,
          decide_eq_true (by omega : j < bits + 1)]
      · subst h
        have hdigit : j + 1 - 1 - j = 0 := by omega
        rw [if_neg (Nat.lt_irrefl j), Nat.sub_self, hdigit, Nat.testBit_zero, Nat.testBit_zero,
          Nat.mod_mod, decide_eq_true (Nat.lt_succ_self j), Bool.true_and]
      · have hsmall : i % 2 < 2 ^ (j - bits) :=
          Nat.lt_of_lt_of_le (Nat.mod_lt i Nat.two_pos)
            (Nat.le_self_pow (by omega : j - bits ≠ 0) 2)
        rw [if_neg (by omega), Nat.testBit_lt_two_pow hsmall,
          decide_eq_false (by omega : ¬ j < bits + 1), Bool.false_and]

/-- Reversing twice changes nothing. -/
theorem reversal_reversal {bits i : Nat} (h : i < 2 ^ bits) :
    reversal bits (reversal bits i) = i := by
  refine Nat.eq_of_testBit_eq (fun j => ?_)
  rw [testBit_reversal, testBit_reversal]
  -- Counting from the other end twice is counting from this one.
  by_cases hj : j < bits
  · have hback : bits - 1 - (bits - 1 - j) = j := by omega
    rw [hback, decide_eq_true hj, decide_eq_true (by omega : bits - 1 - j < bits), Bool.true_and,
      Bool.true_and]
  · have hhigh : i < 2 ^ j := Nat.lt_of_lt_of_le h (Nat.pow_le_pow_right Nat.two_pos (by omega))
    rw [decide_eq_false hj, Bool.false_and, Nat.testBit_lt_two_pow hhigh]

/-- An even number reverses to one below the middle. -/
theorem reversal_succ_two_mul (bits i : Nat) : reversal (bits + 1) (2 * i) = reversal bits i := by
  rw [reversal, Nat.mul_mod_right, Nat.mul_zero, Nat.zero_add,
    Nat.mul_div_cancel_left i Nat.two_pos]

/-- An odd number reverses to one above the middle. -/
theorem reversal_succ_two_mul_add_one (bits i : Nat) :
    reversal (bits + 1) (2 * i + 1) = reversal bits i + 2 ^ bits := by
  have hmod : (2 * i + 1) % 2 = 1 := by omega
  have hdiv : (2 * i + 1) / 2 = i := by omega
  rw [reversal, hmod, hdiv, Nat.mul_one, Nat.add_comm]

/-- Zeros at the low end become zeros at the high end, where they do not count. -/
theorem reversal_mul_two_pow (bits zeros i : Nat) :
    reversal (bits + zeros) (i * 2 ^ zeros) = reversal bits i := by
  induction zeros with
  | zero => rw [Nat.pow_zero, Nat.mul_one, Nat.add_zero]
  | succ zeros ih =>
      -- One zero at a time: an even number reverses as its half does.
      have hdouble : i * 2 ^ (zeros + 1) = 2 * (i * 2 ^ zeros) := by rw [pow_succ]; ring
      rw [hdouble, ← Nat.add_assoc, reversal_succ_two_mul, ih]

/-- A number of bits is small enough to be a word. -/
theorem toNat_ofNat_of_le_width {n : Nat} (h : n ≤ 64) : (UInt64.ofNat n).toNat = n :=
  UInt64.toNat_ofNat_of_lt' (Nat.lt_of_le_of_lt h (by decide))

/-- A number shifted left is the exact product, less the bits that leave the
    word. -/
theorem Checked.shiftLeft_of_lt (n : Nat) {amount : UInt64} (h : amount.toNat < 64) :
    shiftLeft (UInt64.ofNat n) amount = .ok (UInt64.ofNat (n * 2 ^ amount.toNat)) := by
  have hamount : amount < 64 := UInt64.lt_iff_toNat_lt.mpr h
  unfold shiftLeft
  rw [if_pos hamount, Except.ok.injEq, ← UInt64.toNat_inj, UInt64.toNat_shiftLeft,
    Nat.mod_eq_of_lt h, Nat.shiftLeft_eq, UInt64.toNat_ofNat', UInt64.toNat_ofNat',
    Nat.mod_mul_mod]

/-- A one stays in its word. -/
theorem Checked.exists_shiftLeft_one {amount : UInt64} (h : amount.toNat < 64) :
    ∃ n, shiftLeft 1 amount = .ok n ∧ n.toNat = 2 ^ amount.toNat := by
  refine ⟨UInt64.ofNat (1 * 2 ^ amount.toNat), shiftLeft_of_lt 1 h, ?_⟩
  rw [Nat.one_mul, UInt64.toNat_ofNat_of_lt' (Nat.pow_lt_pow_right (by decide) h)]

theorem Checked.shiftLeft_of_le (a : UInt64) {amount : UInt64} (h : 64 ≤ amount.toNat) :
    shiftLeft a amount = .error .overflow := by
  have hamount : ¬ amount < 64 := fun hlt => Nat.not_lt_of_le h (UInt64.lt_iff_toNat_lt.mp hlt)
  exact if_neg hamount

/-- Moving bits from one word to another reverses them. -/
theorem toNat_shiftBits (count : Nat) : ∀ source target : UInt64,
    (shiftBits count source target).toNat =
      (target.toNat * 2 ^ count + reversal count source.toNat) % 2 ^ 64 := by
  induction count with
  | zero =>
      intro source target
      rw [shiftBits, reversal, Nat.pow_zero, Nat.mul_one, Nat.add_zero]
      exact (Nat.mod_eq_of_lt target.toNat_lt).symm
  | succ count ih =>
      intro source target
      have hsource : (source >>> 1).toNat = source.toNat / 2 := by
        rw [UInt64.toNat_shiftRight, Nat.shiftRight_eq_div_pow]
        rfl
      have htarget : ((target <<< 1) ||| (source &&& 1)).toNat =
          (2 * target.toNat + source.toNat % 2) % 2 ^ 64 := by
        have hbit : (source &&& 1).toNat = source.toNat % 2 := by
          rw [UInt64.toNat_and]
          exact Nat.and_one_is_mod _
        have hshift : (target <<< 1).toNat = 2 * target.toNat % 2 ^ 64 := by
          have h1 : (1 : UInt64).toNat % 64 = 1 := rfl
          rw [UInt64.toNat_shiftLeft, h1, Nat.shiftLeft_eq, Nat.pow_one, Nat.mul_comm]
        -- Shifted, the target is even, so the bit goes where nothing stands.
        have heven : 2 * target.toNat % 2 ^ 64 = 2 * (target.toNat % 2 ^ 63) := by omega
        rw [UInt64.toNat_or, hbit, hshift, heven,
          ← Nat.two_pow_add_eq_or_of_lt (i := 1) (by omega)]
        omega
      -- The bit moved now will be followed by `count` more on the low end.
      unfold shiftBits
      rw [ih, htarget, hsource, reversal]
      have hsum : (2 * target.toNat + source.toNat % 2) * 2 ^ count +
          reversal count (source.toNat / 2) =
            target.toNat * 2 ^ (count + 1) + (2 ^ count * (source.toNat % 2) +
              reversal count (source.toNat / 2)) := by
        rw [pow_succ]
        ring
      rw [← hsum]
      exact ((Nat.mod_modEq _ _).mul_right _).add_right _

/-- All bits of a word in reverse order. -/
theorem toNat_reverseWord (w : UInt64) : (reverseWord w).toNat = reversal 64 w.toNat := by
  have hzero : (0 : UInt64).toNat = 0 := rfl
  unfold reverseWord
  rw [toNat_shiftBits, hzero, Nat.zero_mul, Nat.zero_add, Nat.mod_eq_of_lt (reversal_lt 64 _)]

/-- Dropping digits at the low end drops those that stood at the high end. -/
theorem reversal_div_two_pow {bits width : Nat} (h : bits ≤ width) (i : Nat) :
    reversal width i / 2 ^ (width - bits) = reversal bits i := by
  refine Nat.eq_of_testBit_eq (fun j => ?_)
  rw [Nat.testBit_div_two_pow, testBit_reversal, testBit_reversal]
  have hindex : width - 1 - (j + (width - bits)) = bits - 1 - j := by omega
  have hbound : j + (width - bits) < width ↔ j < bits := by omega
  rw [hindex, decide_eq_decide.mpr hbound]

/-- The low bits of a word in reverse order. -/
theorem reverseBits_eq {bits i : Nat} (hbits : bits ≤ 64) (hi : i < UInt64.size) :
    reverseBits (UInt64.ofNat i) (UInt64.ofNat bits) = .ok (UInt64.ofNat (reversal bits i)) := by
  have hword := toNat_ofNat_of_le_width hbits
  by_cases hzero : bits = 0
  · rw [hzero]
    rfl
  · -- All 64 bits are reversed, and what stood above the low ones is shifted out.
    have hnonzero : ¬ UInt64.ofNat bits = 0 := by
      intro h
      rw [h] at hword
      exact hzero hword.symm
    have hshift := toNat_ofNat_of_le_width (Nat.sub_le 64 bits)
    have hamount : Checked.sub 64 (UInt64.ofNat bits) = .ok (UInt64.ofNat (64 - bits)) := by
      have h64 : (64 : UInt64).toNat = 64 := rfl
      rw [Checked.sub_eq_ok_iff, hword, hshift, h64]
      omega
    have hplaces : UInt64.ofNat (64 - bits) < 64 := by
      have h64 : (64 : UInt64).toNat = 64 := rfl
      rw [UInt64.lt_iff_toNat_lt, hshift, h64]
      omega
    have hrun : reverseBits (UInt64.ofNat i) (UInt64.ofNat bits) =
        .ok (reverseWord (UInt64.ofNat i) >>> UInt64.ofNat (64 - bits)) := by
      unfold reverseBits
      rw [if_neg hnonzero, hamount]
      exact if_pos hplaces
    have hdigits : reversal bits i < UInt64.size :=
      Nat.lt_of_lt_of_le (reversal_lt bits i) (Nat.pow_le_pow_right Nat.two_pos hbits)
    have hlow : 64 - bits < 64 := by omega
    rw [hrun, Except.ok.injEq, ← UInt64.toNat_inj, UInt64.toNat_shiftRight, hshift,
      toNat_reverseWord, UInt64.toNat_ofNat_of_lt' hi, UInt64.toNat_ofNat_of_lt' hdigits,
      Nat.mod_eq_of_lt hlow, Nat.shiftRight_eq_div_pow, reversal_div_two_pow hbits]

end TraceCommit
