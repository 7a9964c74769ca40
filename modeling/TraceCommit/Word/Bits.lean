import TraceCommit.Word.Checked

/-!
# Bits of Words

Binary logarithms, and the reversal of the low bits of a word that puts a
transform's input in order.

## Main definitions

* `IsTwoPower`: The number is a power of two.
* `log2Strict`: The logarithm of a power of two.
* `log2Ceil`: The logarithm rounded up.
* `reverseWord`, `reverseBits`: All bits, or the low bits, in reverse order.
-/

namespace TraceCommit

/-- The number is a power of two. -/
def IsTwoPower (n : Nat) : Prop := 1 <<< n.log2 = n

instance (n : Nat) : Decidable (IsTwoPower n) :=
  inferInstanceAs (Decidable (1 <<< n.log2 = n))

/-- The binary logarithm of a power of two. -/
def log2Strict (n : Nat) : Except Violation Nat :=
  if IsTwoPower n then .ok n.log2 else .error (.notPowerOfTwo n)

/-- The least `k` with `n ≤ 2 ^ k`. -/
def log2Ceil (n : Nat) : Nat :=
  if n ≤ 1 then 0 else (n - 1).log2 + 1

/-- Moves the low `count` bits of `source`, lowest first, onto the low end of
    `target`. -/
def shiftBits : Nat → (source target : UInt64) → UInt64
  | 0, _, target => target
  | count + 1, source, target =>
    shiftBits count (source >>> 1) ((target <<< 1) ||| (source &&& 1))

/-- The word with its 64 bits in reverse order. -/
def reverseWord (w : UInt64) : UInt64 := shiftBits 64 w 0

/-- The low `bits` bits of `index` in reverse order; higher bits are dropped. -/
def reverseBits (index bits : UInt64) : Except Violation UInt64 := do
  if bits = 0 then return 0
  Checked.shiftRight (reverseWord index) (← Checked.sub 64 bits)

end TraceCommit
