import TraceCommit.Field.Element
import TraceCommit.Kernel.Capability

/-!
# Batch Kernels

Arithmetic on whole sequences of elements. A `Kernels` record holds one
implementation of it; the one given here works an element at a time and needs
nothing of the processor. Operands must agree in length: a kernel compares
first its two inputs and then the first input with the third operand, and
refuses to start if either comparison fails.

## Main definitions

* `Kernels`: An implementation of the batch operations.
* `Kernels.scalar`: The one that works an element at a time.
* `butterflyPairs`: One butterfly for each pair of elements.
-/

namespace TraceCommit

/-- An implementation of the batch operations. The ones that write to a
    separate output are given that output's length. -/
structure Kernels where
  /-- The width the implementation works at. -/
  capability : Capability
  /-- The sums of corresponding elements. -/
  add : Array Element → Array Element → Nat → Except Violation (Array Element)
  /-- The differences of corresponding elements. -/
  sub : Array Element → Array Element → Nat → Except Violation (Array Element)
  /-- The products of corresponding elements. -/
  mul : Array Element → Array Element → Nat → Except Violation (Array Element)
  /-- A sequence with each element multiplied by its factor. -/
  mulAssign : Array Element → Array Element → Except Violation (Array Element)
  /-- A sequence with each element multiplied by one scalar. -/
  scale : Array Element → Element → Array Element
  /-- One butterfly for each pair from the two sequences, with its twiddle. -/
  butterflies : Array Element → Array Element → Array Element →
    Except Violation (Array Element × Array Element)

/-- Refuses two lengths that differ. -/
def requireSameLength (operation : BatchOperation) (left right : Nat) :
    Except Violation Unit :=
  if left = right then .ok () else .error (.operandLengths operation)

/-- Refuses a third length that differs from the first, after a second one
    that does. -/
def requireSameLengths (operation : BatchOperation) (first second third : Nat) :
    Except Violation Unit := do
  requireSameLength operation first second
  requireSameLength operation first third

/-- Replaces each pair `a`, `b` with twiddle `w` by `a + b * w`, `a - b * w`. -/
def butterflyPairs (lo hi twiddles : Array Element) : Array Element × Array Element :=
  let turned := Array.zipWith (· * ·) hi twiddles
  (Array.zipWith (· + ·) lo turned, Array.zipWith (· - ·) lo turned)

/-- The kernels that work an element at a time. -/
def Kernels.scalar : Kernels where
  capability := .scalar
  add lhs rhs outLength := do
    requireSameLengths .add lhs.size rhs.size outLength
    return Array.zipWith (· + ·) lhs rhs
  sub lhs rhs outLength := do
    requireSameLengths .sub lhs.size rhs.size outLength
    return Array.zipWith (· - ·) lhs rhs
  mul lhs rhs outLength := do
    requireSameLengths .mul lhs.size rhs.size outLength
    return Array.zipWith (· * ·) lhs rhs
  mulAssign values factors := do
    requireSameLength .mulAssign values.size factors.size
    return Array.zipWith (· * ·) values factors
  scale values scalar := values.map (· * scalar)
  butterflies lo hi twiddles := do
    requireSameLengths .butterflies lo.size hi.size twiddles.size
    return butterflyPairs lo hi twiddles

end TraceCommit
