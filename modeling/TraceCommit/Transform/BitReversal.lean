import TraceCommit.Access
import TraceCommit.Word.Bits

/-!
# The Bit Reversal Permutation

Before its butterflies run, a transform's input is permuted: position `i`
receives what stood at the position whose binary digits are those of `i` in
reverse order. The permutation is its own inverse, so it is carried out by
swaps, each pair of positions being swapped when its smaller one comes up.

A machine swaps within one sequence. An action on it that breaks off comes with
the sequence it leaves behind, so that what has been moved by then can be told.

## Main definitions

* `reverseIndexBits`: The permuted sequence.
* `InPlace`, `InPlace.apply`: Actions on a sequence, and what they make of it.
* `reverseInPlace`: The permutation, swap by swap.
-/

namespace TraceCommit

variable {α : Type}

/-- Swaps position `i` with its reversal, if that is the larger of the two. -/
def swapReversed (bits i : Nat) (xs : Array α) : Except Violation (Array α) := do
  let j := (← reverseBits (UInt64.ofNat i) (UInt64.ofNat bits)).toNat
  if i < j then swapItems xs i j else return xs

/-- Permutes a sequence by reversing the bits of its indices. Up to two items
    stay in place; more must be a power of two. -/
def reverseIndexBits (xs : Array α) : Except Violation (Array α) := do
  if xs.size ≤ 2 then return xs
  let bits ← log2Strict xs.size
  (List.range xs.size).foldlM (fun xs i => swapReversed bits i xs) xs

/-- An action on a sequence that may break off. A violation comes with the sequence
    it leaves behind. -/
abbrev InPlace (α : Type) := EStateM Violation (Array α)

instance : MonadLift (Except Violation) (InPlace α) where
  monadLift
    | .ok a => pure a
    | .error e => throw e

/-- What an action makes of a sequence, if it does not break off. -/
def InPlace.apply (action : InPlace α Unit) (xs : Array α) : Except Violation (Array α) :=
  match action.run xs with
  | .ok _ ys => .ok ys
  | .error e _ => .error e

/-- Swaps position `i` with its reversal, if that is the larger of the two. -/
def swapInPlace (bits i : Nat) : InPlace α Unit := do
  let j := (← reverseBits (UInt64.ofNat i) (UInt64.ofNat bits)).toNat
  if i < j then set (← swapItems (← get) i j)

/-- Permutes the sequence by reversing the bits of its indices. -/
def reverseInPlace : InPlace α Unit := do
  let size := (← get).size
  if 2 < size then
    let bits ← log2Strict size
    (List.range size).forM (swapInPlace bits)

end TraceCommit
