/-!
# Field Errors

## Main definitions

* `FieldError`: What can go wrong in field arithmetic.
* `FieldError.message`: Its wording.
-/

namespace TraceCommit

/-- A word as `0x` and sixteen hexadecimal digits. -/
def hexWord (w : UInt64) : String :=
  let digits := Nat.toDigits 16 w.toNat
  "0x" ++ String.ofList (List.replicate (16 - digits.length) '0' ++ digits)

/-- What can go wrong in field arithmetic. -/
inductive FieldError
  /-- The zero element was inverted. -/
  | divisionByZero
  /-- An encoding was not below the modulus. -/
  | nonCanonical (value : UInt64)
  /-- A subgroup of order `2 ^ log2Order` was asked for, beyond `2 ^ max`. -/
  | twoAdicityExceeded (log2Order max : Nat)
deriving DecidableEq, Repr

/-- The wording of a field error. -/
def FieldError.message : FieldError → String
  | .divisionByZero => "division by zero: the zero element has no multiplicative inverse"
  | .nonCanonical value => s!"non-canonical field encoding {hexWord value}"
  | .twoAdicityExceeded log2Order max =>
    s!"no subgroup of order 2^{log2Order}: the field two-adicity is {max}"

end TraceCommit
