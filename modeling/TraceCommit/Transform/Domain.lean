import TraceCommit.Field.Element
import TraceCommit.Transform.Error
import TraceCommit.Word.Bits

/-!
# Radix-2 Domains

A transform of length `n` evaluates over the subgroup of order `n`, so `n` is
a power of two no larger than the field's two-adicity allows.

## Main definitions

* `maxLog2Size`: The logarithm of the largest domain.
* `domainLog2`: The logarithm of a usable domain's size.
-/

namespace TraceCommit

/-- The logarithm of the largest domain's size. -/
def maxLog2Size : Nat := Element.twoAdicity

/-- The logarithm of the size of a usable domain. -/
def domainLog2 (size : Nat) : Except TransformError Nat := do
  if size = 0 ∨ ¬ IsTwoPower size then throw (.invalidDomainSize size)
  let log2Size ← log2Strict size
  if maxLog2Size < log2Size then throw (.domainTooLarge log2Size maxLog2Size)
  return log2Size

end TraceCommit
