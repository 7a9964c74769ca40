import TraceCommit.Word.Wide

/-!
# Goldilocks Arithmetic on Words

Arithmetic modulo `p = 2 ^ 64 - 2 ^ 32 + 1` on single words. All functions
take canonical words, those below `p`, and give canonical words back, except
`canonicalize` and `reduce`, which bring any word and any double word into
that range.

The reduction of a double word rests on `2 ^ 64 = 2 ^ 32 - 1` and
`2 ^ 96 = -1` modulo `p`: the top 32 bits are subtracted, the next 32 are
multiplied by `2 ^ 32 - 1` and added, and a borrow or a carry out of the word
is worth `2 ^ 32 - 1` itself. Beside each operation with an intermediate sum,
difference or product that a machine could see overflow stands its checked
form, which refuses instead of wrapping.

## Main definitions

* `modulus`: The prime `p`.
* `Word.canonicalize`, `Word.reduce`: Into the canonical range.
* `Word.add`, `Word.sub`, `Word.neg`, `Word.mul`: Arithmetic modulo `p`.
* `Word.addChecked`, `Word.subChecked`, `Word.negChecked`, `Word.reduceChecked`:
  The same steps in arithmetic that reports overflows.

## Theorems

* `Word.canonicalize_lt`: Canonicalizing lands below the modulus.
* `Word.add_lt`, `Word.sub_lt`, `Word.neg_lt`, `Word.mul_lt`: So do the
  operations.
-/

namespace TraceCommit

/-- The field's modulus, `2 ^ 64 - 2 ^ 32 + 1`. -/
def modulus : UInt64 := 0xffffffff00000001

theorem toNat_modulus : modulus.toNat = 18446744069414584321 := rfl

theorem toNat_lowMask : lowMask.toNat = 4294967295 := rfl

namespace Word

/-- Brings a word into the canonical range by at most one subtraction. -/
@[inline] def canonicalize (x : UInt64) : UInt64 :=
  if modulus ≤ x then x - modulus else x

/-- The sum modulo `p`. A sum that wrapped lost `2 ^ 64`, which is
    `2 ^ 32 - 1` modulo `p`. -/
@[inline] def add (a b : UInt64) : UInt64 :=
  let sum := a + b
  canonicalize (if sum < a then sum + lowMask else sum)

/-- The difference modulo `p`. A difference that wrapped gained `2 ^ 64`. -/
@[inline] def sub (a b : UInt64) : UInt64 :=
  if a < b then a - b - lowMask else a - b

/-- The negation modulo `p`. -/
@[inline] def neg (a : UInt64) : UInt64 :=
  if a = 0 then 0 else modulus - a

/-- A double word modulo `p`. -/
@[inline] def reduce (x : Wide) : UInt64 :=
  let top := x.hi >>> 32
  let middle := x.hi &&& lowMask
  -- The top part counts negatively; a borrow gains 2 ^ 64, which is taken back.
  let difference := if x.lo < top then x.lo - top - lowMask else x.lo - top
  -- Both factors are below 2 ^ 32, so this product never wraps.
  let folded := middle * lowMask
  let sum := difference + folded
  canonicalize (if sum < difference then sum + lowMask else sum)

/-- The product modulo `p`. -/
@[inline] def mul (a b : UInt64) : UInt64 :=
  reduce (.product a b)

/-- The sum modulo `p`, with the addition after a carry checked. -/
def addChecked (a b : UInt64) : Except Violation UInt64 := do
  let sum := a + b
  let sum ← Checked.add sum (← Checked.mul (if sum < a then 1 else 0) lowMask)
  if modulus ≤ sum then Checked.sub sum modulus else return sum

/-- The difference modulo `p`. The differences may wrap; what a borrow takes
    back is a checked product. -/
def subChecked (a b : UInt64) : Except Violation UInt64 := do
  let correction ← Checked.mul (if a < b then 1 else 0) lowMask
  return a - b - correction

/-- The negation modulo `p`, with the subtraction checked. -/
def negChecked (a : UInt64) : Except Violation UInt64 :=
  if a = 0 then return 0 else Checked.sub modulus a

/-- The reduction of a double word with its three inner steps checked: the
    subtraction after a borrow, the product, and the addition after a carry. -/
def reduceChecked (x : Wide) : Except Violation UInt64 := do
  let top := x.hi >>> 32
  let middle := x.hi &&& lowMask
  let difference ←
    if x.lo < top then Checked.sub (x.lo - top) lowMask else pure (x.lo - top)
  let folded ← Checked.mul middle lowMask
  let sum := difference + folded
  let sum ← Checked.add sum (← Checked.mul lowMask (if sum < difference then 1 else 0))
  if modulus ≤ sum then Checked.sub sum modulus else return sum

/-- The product modulo `p` through the checked reduction. -/
def mulChecked (a b : UInt64) : Except Violation UInt64 :=
  reduceChecked (.product a b)

/-- Canonicalizing lands below the modulus, since twice the modulus exceeds
    every word. -/
theorem canonicalize_lt (x : UInt64) : canonicalize x < modulus := by
  have hx := x.toNat_lt
  have hp := toNat_modulus
  unfold canonicalize
  split
  · rename_i h
    rw [UInt64.lt_iff_toNat_lt, UInt64.toNat_sub_of_le x modulus h]
    omega
  · rename_i h
    rw [UInt64.le_iff_toNat_le] at h
    rw [UInt64.lt_iff_toNat_lt]
    omega

/-- A canonical word is left as it is. -/
theorem canonicalize_of_lt {x : UInt64} (h : x < modulus) : canonicalize x = x := by
  unfold canonicalize
  rw [if_neg]
  rw [UInt64.lt_iff_toNat_lt] at h
  rw [UInt64.le_iff_toNat_le]
  omega

/-- Sums are canonical. -/
theorem add_lt (a b : UInt64) : add a b < modulus := canonicalize_lt _

/-- Differences of canonical words are canonical. -/
theorem sub_lt {a b : UInt64} (ha : a < modulus) (hb : b < modulus) :
    sub a b < modulus := by
  have hp := toNat_modulus
  have hm := toNat_lowMask
  rw [UInt64.lt_iff_toNat_lt] at ha hb
  unfold sub
  split
  · rename_i h
    rw [UInt64.lt_iff_toNat_lt] at h
    rw [UInt64.lt_iff_toNat_lt, UInt64.toNat_sub, UInt64.toNat_sub]
    omega
  · rename_i h
    rw [UInt64.lt_iff_toNat_lt] at h
    rw [UInt64.lt_iff_toNat_lt, UInt64.toNat_sub]
    omega

/-- Negations of canonical words are canonical. -/
theorem neg_lt {a : UInt64} (ha : a < modulus) : neg a < modulus := by
  have hp := toNat_modulus
  rw [UInt64.lt_iff_toNat_lt] at ha
  unfold neg
  split
  · decide
  · rename_i h
    have hpos : a.toNat ≠ 0 := fun h0 => h (UInt64.toNat_inj.mp h0)
    rw [UInt64.lt_iff_toNat_lt, UInt64.toNat_sub]
    omega

/-- Reductions are canonical. -/
theorem reduce_lt (x : Wide) : reduce x < modulus := canonicalize_lt _

/-- Products are canonical. -/
theorem mul_lt (a b : UInt64) : mul a b < modulus := reduce_lt _

end Word

end TraceCommit
