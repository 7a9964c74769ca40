import TraceCommit.Storage
import TraceCommit.Transform.Extension

/-!
# Polynomials

A polynomial is held by its coefficients, constant term first, or by its
values over a radix-2 domain. Trailing zero coefficients are allowed and make
no difference to the polynomial.

## Main definitions

* `Polynomial`: Coefficients, constant term first.
* `Polynomial.eval`, `Polynomial.degree?`, `Polynomial.trimmed`: Its value,
  degree and shortest form.
* `Polynomial.padded`, `Polynomial.extended`: With zeros appended.
* `Evaluations`: Values over a domain.
* `Evaluations.ldeOntoCoset`: Interpolation followed by extension.
-/

namespace TraceCommit

/-- A polynomial by its coefficients, constant term first. -/
structure Polynomial where
  /-- The coefficients; trailing zeros are allowed. -/
  coefficients : Array Element
deriving DecidableEq

/-- The values of a polynomial over a radix-2 domain, in natural order. -/
structure Evaluations where
  /-- The values. -/
  values : Array Element
deriving DecidableEq

namespace Polynomial

/-- The zero polynomial with `length` coefficients. -/
def zero (length : Nat) : Except Violation Polynomial := do
  requireRoom Element.byteCount length
  return ⟨Array.replicate length 0⟩

/-- The number of coefficients. -/
def length (p : Polynomial) : Nat := p.coefficients.size

/-- The value at a point, by Horner's rule. -/
def eval (p : Polynomial) (point : Element) : Element :=
  p.coefficients.foldr (fun coefficient rest => rest * point + coefficient) 0

/-- The largest index below `count` with a coefficient other than zero. -/
def lastNonzero (coefficients : Array Element) : Nat → Option Nat
  | 0 => none
  | i + 1 => if coefficients.getD i 0 = 0 then lastNonzero coefficients i else some i

/-- The degree; the zero polynomial has none. -/
def degree? (p : Polynomial) : Option Nat := lastNonzero p.coefficients p.length

/-- The polynomial without trailing zero coefficients. -/
def trimmed (p : Polynomial) : Polynomial :=
  ⟨p.coefficients.extract 0 (p.degree?.elim 0 (· + 1))⟩

/-- The polynomial with zeros appended up to `length` coefficients, which must
    be at least as many as it has. A length that no memory has room for is refused. -/
def padded (p : Polynomial) (length : Nat) : Except TransformError Polynomial := do
  if length < p.length then throw (.polynomialTooLarge p.length length)
  requireRoom Element.byteCount length
  return ⟨padZeros length p.coefficients⟩

/-- The polynomial brought to `length * 2 ^ rateBits` coefficients. The new
    length is a shifted word: bits that leave it are lost, and a length that no
    memory has room for is refused. -/
def extended (p : Polynomial) (rateBits : UInt64) : Except Violation Polynomial := do
  let length ← Checked.shiftLeft (UInt64.ofNat p.length) rateBits
  requireRoom Element.byteCount length.toNat
  return ⟨padZeros length.toNat (p.coefficients.extract 0 length.toNat)⟩

/-- The values over the subgroup of as many points as there are coefficients. -/
def fft (e : Engine) (p : Polynomial) : Except TransformError Evaluations :=
  Evaluations.mk <$> TraceCommit.fft e p.coefficients

/-- The values over the coset `shift * H`. -/
def cosetFft (e : Engine) (p : Polynomial) (shift : Element) :
    Except TransformError Evaluations :=
  Evaluations.mk <$> TraceCommit.cosetFft e p.coefficients shift

end Polynomial

namespace Evaluations

/-- The polynomial with these values over the subgroup. -/
def ifft (e : Engine) (v : Evaluations) : Except TransformError Polynomial :=
  Polynomial.mk <$> TraceCommit.ifft e v.values

/-- The polynomial with these values over `shift * H`. -/
def cosetIfft (e : Engine) (v : Evaluations) (shift : Element) :
    Except TransformError Polynomial :=
  Polynomial.mk <$> TraceCommit.cosetIfft e v.values shift

/-- The values of the same polynomial on the generator's coset of
    `2 ^ rateBits` times as many points. -/
def ldeOntoCoset (e : Engine) (v : Evaluations) (rateBits : UInt64) :
    Except TransformError Evaluations := do
  let p ← v.ifft e
  Evaluations.mk <$> lde e p.coefficients rateBits

end Evaluations

end TraceCommit
