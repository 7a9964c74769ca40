import TraceCommit.Field.Word
import TraceCommit.Field.Error
import TraceCommit.Power
import TraceCommit.Storage

/-!
# Elements of the Goldilocks Field

An element is a canonical word, so equality of elements is equality of words
and every element has exactly one encoding. The operations are those of
`Field.Word`, whose results are canonical by the lemmas proved there.

## Main definitions

* `Element`: A word below the modulus.
* `Element.ofWord`, `Element.ofWide`, `Element.ofWord?`: From words.
* `Element.pow`, `Element.inverse`: Powers and inverses.
* `Element.rootOfUnity`: Primitive roots of two-power order.
* `Element.powers`: An initial segment of the powers of an element.
* `Element.toBytes`, `Element.ofBytes`: The little-endian encoding.
-/

namespace TraceCommit

/-- An element of the field, as its canonical word. -/
structure Element where
  /-- The canonical representative. -/
  val : UInt64
  /-- The representative is below the modulus. -/
  isCanonical : val < modulus
deriving DecidableEq

namespace Element

/-- The element of any word, reduced. -/
@[inline] def ofWord (w : UInt64) : Element := ⟨Word.canonicalize w, Word.canonicalize_lt w⟩

/-- The element of any double word, reduced. -/
@[inline] def ofWide (w : Wide) : Element := ⟨Word.reduce w, Word.reduce_lt w⟩

/-- The element whose representative is the word, if the word is canonical. -/
def ofWord? (w : UInt64) : Option Element :=
  if h : w < modulus then some ⟨w, h⟩ else none

/-- Every 32-bit word is canonical. -/
theorem toUInt64_lt_modulus (w : UInt32) : w.toUInt64 < modulus := by
  have hw := w.toNat_lt
  have hp := toNat_modulus
  rw [UInt64.lt_iff_toNat_lt, UInt32.toNat_toUInt64]
  omega

/-- The element of a 32-bit word. -/
def ofWord32 (w : UInt32) : Element := ⟨w.toUInt64, toUInt64_lt_modulus w⟩

instance : Zero Element := ⟨⟨0, by decide⟩⟩
instance : One Element := ⟨⟨1, by decide⟩⟩
instance : Inhabited Element := ⟨0⟩

@[inline] instance : Add Element :=
  ⟨fun a b => ⟨Word.add a.val b.val, Word.add_lt _ _⟩⟩

@[inline] instance : Sub Element :=
  ⟨fun a b => ⟨Word.sub a.val b.val, Word.sub_lt a.isCanonical b.isCanonical⟩⟩

@[inline] instance : Neg Element :=
  ⟨fun a => ⟨Word.neg a.val, Word.neg_lt a.isCanonical⟩⟩

@[inline] instance : Mul Element :=
  ⟨fun a b => ⟨Word.mul a.val b.val, Word.mul_lt _ _⟩⟩

/-- Elements are ordered by their representatives. -/
instance : Ord Element := ⟨fun a b => compare a.val b.val⟩

instance : ToString Element := ⟨fun a => toString a.val⟩

/-- The largest `k` for which `2 ^ k` divides `p - 1`. -/
def twoAdicity : Nat := 32

/-- A generator of the multiplicative group, also the shift of the coset onto
    which polynomials are extended. -/
def generator : Element := ⟨7, by decide⟩

/-- The element two. -/
def two : Element := ⟨2, by decide⟩

/-- The element `p - 1`. -/
def negOne : Element := ⟨modulus - 1, by decide⟩

/-- The number of bytes of an encoding. -/
def byteCount : Nat := 8

instance : Item Element := ⟨byteCount⟩

/-- Twice an element. -/
@[inline] def double (a : Element) : Element := a + a

/-- The square of an element. -/
@[inline] def square (a : Element) : Element := a * a

/-- The power with a 64-bit exponent. -/
def pow (a : Element) (exponent : UInt64) : Element :=
  powerBySquaring 1 (· * ·) square a exponent

/-- The power with exponent `2 ^ count`. -/
def powTwoPower (a : Element) (count : Nat) : Element :=
  squareTimes square count a

/-- The inverse, by raising to `p - 2`; zero has none. -/
def inverse? (a : Element) : Option Element :=
  if a = 0 then none else some (a.pow (modulus - 2))

/-- The inverse, or division by zero. -/
def inverse (a : Element) : Except FieldError Element :=
  match a.inverse? with
  | some b => .ok b
  | none => .error .divisionByZero

/-- The primitive root of unity of order `2 ^ log2Order`: the generator raised
    to `(p - 1) / 2 ^ log2Order`. -/
def rootOfUnity (log2Order : Nat) : Except FieldError Element :=
  if twoAdicity < log2Order then .error (.twoAdicityExceeded log2Order twoAdicity)
  else .ok (generator.pow ((modulus - 1) >>> UInt64.ofNat log2Order))

/-- Appends `current`, `current * base`, … to a sequence, `count` of them. -/
def appendPowers (base : Element) : Nat → Element → Array Element → Array Element
  | 0, _, powers => powers
  | count + 1, current, powers =>
    appendPowers base count (current * base) (powers.push current)

/-- The first `count` powers of an element, from the zeroth. -/
def powers (base : Element) (count : Nat) : Array Element :=
  appendPowers base count 1 (Array.emptyWithCapacity count)

/-- The sum of a sequence. -/
def sum (xs : Array Element) : Element := xs.foldl (· + ·) 0

/-- The product of a sequence. -/
def product (xs : Array Element) : Element := xs.foldl (· * ·) 1

/-- The bytes of a word, least significant first. -/
def wordBytes (w : UInt64) : List UInt8 :=
  (List.range byteCount).map fun i => (w >>> UInt64.ofNat (8 * i)).toUInt8

/-- The word of a list of bytes, least significant first. -/
def wordOfBytes (bytes : List UInt8) : UInt64 :=
  bytes.foldr (fun byte rest => (rest <<< 8) ||| byte.toUInt64) 0

/-- The encoding of an element: the eight bytes of its representative, least
    significant first. -/
def toBytes (a : Element) : List UInt8 := wordBytes a.val

/-- Reads an encoding. A word at or above the modulus encodes nothing. -/
def ofBytes (bytes : List UInt8) : Except FieldError Element :=
  let value := wordOfBytes bytes
  match ofWord? value with
  | some a => .ok a
  | none => .error (.nonCanonical value)

end Element

end TraceCommit
