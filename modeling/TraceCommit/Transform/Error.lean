import TraceCommit.Field.Error
import TraceCommit.Violation

/-!
# Transform Errors

## Main definitions

* `TransformError`: Why a transform is refused.
* `TransformError.message?`: Its wording.
-/

namespace TraceCommit

/-- Why a transform is refused. -/
inductive TransformError
  /-- The length is zero or not a power of two. -/
  | invalidDomainSize (size : Nat)
  /-- There are more coefficients than evaluation points. -/
  | polynomialTooLarge (length domainSize : Nat)
  /-- The field has no subgroup of that order. -/
  | domainTooLarge (log2Size max : Nat)
  /-- The zero factor promises more zeros than there are inputs. -/
  | invalidZeroFactor (zeroFactor log2Size : Nat)
  /-- The root table was built for smaller domains. -/
  | rootTableTooSmall (tableLog2 log2Size : Nat)
  /-- The field arithmetic failed. -/
  | field (error : FieldError)
  /-- A calling contract was broken on the way. -/
  | violation (broken : Violation)
deriving DecidableEq, Repr

/-- The wording of a transform error. -/
def TransformError.message? : TransformError → Option String
  | .invalidDomainSize size => some s!"invalid domain size {size}: must be a non-zero power of two"
  | .polynomialTooLarge length domainSize =>
    some s!"polynomial with {length} coefficients does not fit a domain of size {domainSize}"
  | .domainTooLarge log2Size max =>
    some s!"domain of size 2^{log2Size} exceeds the maximum 2^{max}"
  | .invalidZeroFactor zeroFactor log2Size =>
    some s!"zero factor {zeroFactor} is larger than log2 domain size {log2Size}"
  | .rootTableTooSmall tableLog2 log2Size =>
    some s!"root table covers 2^{tableLog2} points, domain needs 2^{log2Size}"
  | .field error => some error.message
  | .violation broken => broken.message?

instance : MonadLift (Except FieldError) (Except TransformError) :=
  ⟨Except.mapError .field⟩

instance : MonadLift (Except Violation) (Except TransformError) :=
  ⟨Except.mapError .violation⟩

end TraceCommit
