/-!
# Broken Calling Contracts

Some operations are partial by contract: a logarithm asks for a power of two,
a batch kernel for operands of one length, a row for an index inside its
matrix, the level of a tree for one half as long above it, sizes are 64-bit
words whose arithmetic must not overflow, and sequences must fit into memory. A
caller that breaks such a contract gets no domain error, because there is nothing
it could sensibly do with one. The break is a `Violation`, and every layer that
could run into one says so in its result type, so that "this never happens" can
be stated and proved instead of assumed.

## Main definitions

* `BatchOperation`: The batch kernels that compare operand lengths.
* `Violation`: The contracts a caller can break.
* `Violation.message?`: The text of a violation, where it has one.
-/

namespace TraceCommit

/-- The batch kernels that insist on operands of equal length. -/
inductive BatchOperation
  | add
  | sub
  | mul
  | mulAssign
  | butterflies
deriving DecidableEq, Repr

/-- The name under which a batch kernel reports operands of different lengths. -/
def BatchOperation.name : BatchOperation → String
  | .add => "batch_add"
  | .sub => "batch_sub"
  | .mul => "batch_mul"
  | .mulAssign => "batch_mul_assign"
  | .butterflies => "butterflies"

/-- A contract that a caller broke. -/
inductive Violation
  /-- A binary logarithm of a number that is not a power of two. -/
  | notPowerOfTwo (n : Nat)
  /-- A batch kernel whose operands differ in length. -/
  | operandLengths (operation : BatchOperation)
  /-- A flat buffer that does not divide into rows of the given width. -/
  | rowShape (values width : Nat)
  /-- Columns of different heights where one height is required. -/
  | columnHeights
  /-- An index outside the sequence it points into. -/
  | outOfRange
  /-- A 64-bit operation whose exact result does not fit. -/
  | overflow
  /-- A sequence that no memory has room for. -/
  | noRoom
  /-- An extension that does not hold one value for each point. -/
  | valueCount (values points : Nat)
  /-- A level of a tree that is not twice as long as the one above it. -/
  | levelSizes (children parents : Nat)
deriving DecidableEq, Repr

/-- The text of a violation. Indices, overflows, lengths without room and counts that
    do not match have none of their own. -/
def Violation.message? : Violation → Option String
  | .notPowerOfTwo n => some s!"{n} is not a power of two"
  | .operandLengths operation => some s!"{operation.name}: operand lengths differ"
  | .rowShape values width =>
    some s!"buffer of {values} values does not hold rows of width {width}"
  | .columnHeights => some "columns must share one height"
  | .outOfRange => none
  | .overflow => none
  | .noRoom => none
  | .valueCount _ _ => none
  | .levelSizes _ _ => none

end TraceCommit
