import TraceCommit.Violation

/-!
# Checked Word Arithmetic

Addition, subtraction, multiplication and shifts of 64-bit words that report
an overflow instead of wrapping. Sizes given by a caller are computed with
these, so a wrapped size can never stand for a smaller one. A left shift is
checked in its amount only: bits that leave the word are dropped, as shifts
do.

## Main definitions

* `Checked.add`, `Checked.sub`, `Checked.mul`: Exact or refused.
* `Checked.shiftLeft`, `Checked.shiftRight`: Shifts by fewer than 64 places.

## Theorems

* `Checked.add_eq_ok_iff`: An accepted sum is the sum of the numbers.
* `Checked.sub_eq_ok_iff`: An accepted difference is their difference.
* `ok_bind`: What follows an accepted step.
-/

namespace TraceCommit

/-- What follows a step that has been accepted goes on with its result. -/
theorem ok_bind {ε α β : Type} (a : α) (f : α → Except ε β) : (Except.ok a >>= f) = f a := rfl

namespace Checked

/-- The sum of two words, refused when it needs a 65th bit. -/
def add (a b : UInt64) : Except Violation UInt64 :=
  if a.toNat + b.toNat < UInt64.size then .ok (a + b) else .error .overflow

/-- The difference of two words, refused when it would be negative. -/
def sub (a b : UInt64) : Except Violation UInt64 :=
  if b ≤ a then .ok (a - b) else .error .overflow

/-- The product of two words, refused when it does not fit a word. -/
def mul (a b : UInt64) : Except Violation UInt64 :=
  if a.toNat * b.toNat < UInt64.size then .ok (a * b) else .error .overflow

/-- The word shifted left, refused for 64 places or more. High bits that leave
    the word are dropped. -/
def shiftLeft (a amount : UInt64) : Except Violation UInt64 :=
  if amount < 64 then .ok (a <<< amount) else .error .overflow

/-- The word shifted right, refused for 64 places or more. -/
def shiftRight (a amount : UInt64) : Except Violation UInt64 :=
  if amount < 64 then .ok (a >>> amount) else .error .overflow

/-- An accepted sum is exactly the sum of the two numbers. -/
theorem add_eq_ok_iff {a b c : UInt64} :
    add a b = .ok c ↔ c.toNat = a.toNat + b.toNat := by
  have hc := c.toNat_lt
  have hs : UInt64.size = 18446744073709551616 := rfl
  unfold add
  split
  · constructor
    · intro h
      cases h
      rw [UInt64.toNat_add]
      omega
    · intro h
      rw [Except.ok.injEq, ← UInt64.toNat_inj, UInt64.toNat_add]
      omega
  · constructor
    · intro h
      cases h
    · intro h
      omega

/-- An accepted difference is exactly the difference of the two numbers, and
    the second is then no larger than the first. -/
theorem sub_eq_ok_iff {a b c : UInt64} :
    sub a b = .ok c ↔ c.toNat + b.toNat = a.toNat := by
  unfold sub
  split
  · rename_i h
    have hle : b.toNat ≤ a.toNat := UInt64.le_iff_toNat_le.mp h
    rw [Except.ok.injEq, ← UInt64.toNat_inj, UInt64.toNat_sub_of_le a b h]
    omega
  · rename_i h
    have hlt : ¬ b.toNat ≤ a.toNat := fun hle => h (UInt64.le_iff_toNat_le.mpr hle)
    constructor
    · intro he
      cases he
    · intro he
      omega

end Checked

end TraceCommit
