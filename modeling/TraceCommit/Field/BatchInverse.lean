import TraceCommit.Field.Element

/-!
# Batch Inversion

Inverts every element of a sequence with one inversion. The products of all
initial segments are formed on the way in; the inverse of the whole product
is formed at the end; on the way out the inverse of each initial product is
the next one's times the element between them, and an element's own inverse
is the inverse of the product that ends with it times the product before it.
No product stands before the first element, which gets what is left.

## Main definitions

* `initialProducts`: The way in.
* `invertDown`: The way out.
* `batchInverse`: All inverses, or division by zero.
-/

namespace TraceCommit

/-- One step on the way in: the next initial product, behind the earlier ones
    and as the product so far. Fails if the element is zero. -/
def multiplyIn (state : Array Element × Element) (x : Element) :
    Except FieldError (Array Element × Element) :=
  if x = 0 then .error .divisionByZero
  else .ok (state.1.push (state.2 * x), state.2 * x)

/-- The products of all initial segments, and that of the whole sequence. -/
def initialProducts (xs : Array Element) : Except FieldError (Array Element × Element) :=
  xs.foldlM multiplyIn (Array.emptyWithCapacity xs.size, 1)

/-- Puts the inverses of the elements from number `last` down to the first in
    their places, where `inverse` is the inverse of the product that ends with
    number `last`. -/
def invertDown (xs products : Array Element) : Nat → Element → Array Element → Array Element
  | 0, inverse, inverses => inverses.setIfInBounds 0 inverse
  | last + 1, inverse, inverses =>
    invertDown xs products last (inverse * xs.getD (last + 1) 0)
      (inverses.setIfInBounds (last + 1) (inverse * products.getD last 0))

/-- The inverse of every element. One zero makes the whole batch fail. -/
def batchInverse (xs : Array Element) : Except FieldError (Array Element) := do
  if xs.isEmpty then return #[]
  let (products, product) ← initialProducts xs
  let inverse ← product.inverse
  return invertDown xs products (xs.size - 1) inverse (Array.replicate xs.size 0)

end TraceCommit
