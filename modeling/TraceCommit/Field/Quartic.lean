import TraceCommit.Field.Element

/-!
# The Quartic Extension

Polynomials of degree below four over the field, modulo `x ^ 4 - 7`. Seven is
not a square and `p` is one modulo four, so the polynomial is irreducible and
the quotient is a field.

The Frobenius map raises to the power `p`. It fixes the base field and sends
`x` to `7 ^ ((p - 1) / 4) * x`, a multiple by a fourth root of unity, so four
applications are none. Inversion goes through the norm, the product of the
four conjugates, which lies in the base field.

## Main definitions

* `Quartic`: Four coefficients in ascending order.
* `Quartic.square`, `Quartic.pow`: Powers.
* `Quartic.frobeniusTimes`: The Frobenius map, any number of times.
* `Quartic.inverse`: Inversion through the norm.
-/

namespace TraceCommit

/-- An element `c0 + c1 * x + c2 * x ^ 2 + c3 * x ^ 3` of the extension. -/
@[ext] structure Quartic where
  c0 : Element
  c1 : Element
  c2 : Element
  c3 : Element
deriving DecidableEq

namespace Quartic

/-- The degree over the base field. -/
def degree : Nat := 4

/-- The base field element that `x ^ 4` stands for. -/
def fourthPower : Element := .ofWord 7

/-- The fourth root of unity by which the Frobenius map multiplies `x`. -/
def frobeniusRoot : Element := fourthPower.pow ((modulus - 1) / 4)

/-- The extension element of a base field element. -/
def ofBase (a : Element) : Quartic := ⟨a, 0, 0, 0⟩

instance : Zero Quartic := ⟨⟨0, 0, 0, 0⟩⟩
instance : One Quartic := ⟨ofBase 1⟩

/-- The coefficients in ascending order. -/
def coefficients (a : Quartic) : List Element := [a.c0, a.c1, a.c2, a.c3]

/-- Applies a function to every coefficient. -/
def map (f : Element → Element) (a : Quartic) : Quartic :=
  ⟨f a.c0, f a.c1, f a.c2, f a.c3⟩

instance : Add Quartic :=
  ⟨fun a b => ⟨a.c0 + b.c0, a.c1 + b.c1, a.c2 + b.c2, a.c3 + b.c3⟩⟩

instance : Sub Quartic :=
  ⟨fun a b => ⟨a.c0 - b.c0, a.c1 - b.c1, a.c2 - b.c2, a.c3 - b.c3⟩⟩

instance : Neg Quartic := ⟨map (- ·)⟩

/-- The product of the coefficient polynomials, with `x ^ 4` folded back. -/
instance : Mul Quartic :=
  ⟨fun a b =>
    let w := fourthPower
    ⟨a.c0 * b.c0 + w * (a.c1 * b.c3 + a.c2 * b.c2 + a.c3 * b.c1),
     a.c0 * b.c1 + a.c1 * b.c0 + w * (a.c2 * b.c3 + a.c3 * b.c2),
     a.c0 * b.c2 + a.c1 * b.c1 + a.c2 * b.c0 + w * a.c3 * b.c3,
     a.c0 * b.c3 + a.c1 * b.c2 + a.c2 * b.c1 + a.c3 * b.c0⟩⟩

/-- The square, with its symmetric products formed once. -/
def square (a : Quartic) : Quartic :=
  let w := fourthPower
  ⟨a.c0.square + w * (a.c1 * a.c3.double + a.c2.square),
   (a.c0 * a.c1 + w * a.c2 * a.c3).double,
   a.c0 * a.c2.double + a.c1.square + w * a.c3.square,
   (a.c0 * a.c3 + a.c1 * a.c2).double⟩

/-- Whether the element lies in the base field. -/
def isBase (a : Quartic) : Bool := a.c1 = 0 && a.c2 = 0 && a.c3 = 0

/-- Every coefficient times a base field element. -/
def scale (a : Quartic) (s : Element) : Quartic := a.map (· * s)

/-- The power with a 64-bit exponent. -/
def pow (a : Quartic) (exponent : UInt64) : Quartic :=
  powerBySquaring 1 (· * ·) square a exponent

/-- The power with exponent `p ^ count`: coefficient `i` is multiplied by the
    `i`-th power of a fourth root of unity. -/
def frobeniusTimes (a : Quartic) (count : Nat) : Quartic :=
  let count := count % degree
  if count = 0 then a
  else
    let z := frobeniusRoot.pow (UInt64.ofNat count)
    let z2 := z * z
    ⟨a.c0 * 1, a.c1 * z, a.c2 * z2, a.c3 * (z2 * z)⟩

/-- The power with exponent `p`. -/
def frobenius (a : Quartic) : Quartic := a.frobeniusTimes 1

/-- The product of the three conjugates other than the element itself. -/
def conjugateProduct (a : Quartic) : Quartic :=
  let first := a.frobenius
  (first * a).frobeniusTimes 2 * first

/-- The product of all four conjugates; it lies in the base field. -/
def norm (a : Quartic) : Quartic := a.conjugateProduct * a

/-- The inverse: the product of the other conjugates over the norm. Zero has
    none. -/
def inverse? (a : Quartic) : Option Quartic :=
  if a = 0 then none
  else a.norm.c0.inverse?.map a.conjugateProduct.scale

/-- The inverse, or division by zero. -/
def inverse (a : Quartic) : Except FieldError Quartic :=
  match a.inverse? with
  | some b => .ok b
  | none => .error .divisionByZero

/-- The polynomial in `x` that the element stands for. -/
def render (a : Quartic) : String :=
  s!"{a.c0} + {a.c1}*x + {a.c2}*x^2 + {a.c3}*x^3"

end Quartic

end TraceCommit
