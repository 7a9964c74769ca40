import TraceCommit.Field.Element
import TraceCommit.Json.Codec

/-!
# Stored Elements

Documents hold field elements as plain words. Reading a document does not
compare the words with the modulus, so what it yields is a word and not yet an
element; `StoredElement.element?` makes that comparison. An extension element
is stored as its four coefficients, and a polynomial as a record with a single
list, whose name tells coefficients from values.

## Main definitions

* `StoredElement`: A word that stands for an element.
* `StoredElement.codec`, `StoredQuartic.codec`: How they are stored.
* `StoredElement.coefficientsCodec`, `StoredElement.valuesCodec`: How
  polynomials are stored.
-/

namespace TraceCommit

open Json

/-- A word that stands for an element. -/
structure StoredElement where
  /-- The word, which may exceed the modulus. -/
  word : UInt64
deriving DecidableEq, Repr

/-- Four words that stand for an extension element, constant coefficient first. -/
structure StoredQuartic where
  /-- The constant coefficient. -/
  c0 : StoredElement
  /-- The coefficient of `x`. -/
  c1 : StoredElement
  /-- The coefficient of `x ^ 2`. -/
  c2 : StoredElement
  /-- The coefficient of `x ^ 3`. -/
  c3 : StoredElement
deriving DecidableEq, Repr

namespace StoredElement

/-- An element as it is stored. -/
def ofElement (a : Element) : StoredElement := ⟨a.val⟩

/-- The element, if the word is canonical. -/
def element? (s : StoredElement) : Option Element := Element.ofWord? s.word

/-- A single element. -/
def codec : Codec StoredElement where
  write s := .word s.word
  read? v := StoredElement.mk <$> v.word?

/-- A list of elements as the only field of a record. -/
def sequenceCodec (field : String) : Codec (List StoredElement) where
  write items := .record [(field, (Codec.list codec).write items)]
  read? v := do
    match ← v.record? [field] false with
    | [items] => required (Codec.list codec).read? items
    | _ => none

/-- A polynomial given by coefficients. -/
def coefficientsCodec : Codec (List StoredElement) := sequenceCodec "coeffs"

/-- A polynomial given by values. -/
def valuesCodec : Codec (List StoredElement) := sequenceCodec "values"

end StoredElement

/-- An extension element: exactly four coefficients. -/
def StoredQuartic.codec : Codec StoredQuartic where
  write s := .array ([s.c0, s.c1, s.c2, s.c3].map StoredElement.codec.write)
  read? v := do
    match ← (Codec.list StoredElement.codec).read? v with
    | [c0, c1, c2, c3] => some ⟨c0, c1, c2, c3⟩
    | _ => none

end TraceCommit
