import TraceCommit.Hash.Hasher

/-!
# Caps

The cap of a tree is one of its levels: the nodes at which openings stop. A
cap of one node is the root.

## Main definitions

* `MerkleCap`: The nodes, left to right.
* `MerkleCap.height`: The logarithm of their number.
-/

namespace TraceCommit

/-- The nodes at which openings stop, left to right. -/
structure MerkleCap (δ : Type) where
  /-- The nodes. -/
  nodes : Array δ
deriving DecidableEq

/-- The number of zero bits below the lowest one bit of a word-sized number;
    zero has all 64. -/
def trailingZeros (n : Nat) : Nat :=
  if n = 0 then 64 else (n ^^^ (n - 1)).log2

namespace MerkleCap

variable {δ : Type}

/-- The number of nodes. -/
def length (cap : MerkleCap δ) : Nat := cap.nodes.size

/-- The logarithm of the number of nodes. -/
def height (cap : MerkleCap δ) : Nat := trailingZeros cap.length

/-- The bytes of the nodes, one node after another. -/
def bytes (h : Hasher δ) (cap : MerkleCap δ) : List UInt8 := cap.nodes.toList.flatMap h.bytes

end MerkleCap

end TraceCommit
