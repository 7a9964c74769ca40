import TraceCommit.Decimal.Shortest

/-!
# Numbers in Documents

A number as it is spelled in a JSON document, and what it stands for: a 64-bit
word if it is a plain non-negative integer that fits, or a floating-point
number. The latter is computed from the digits that fit a word and a power of
ten, by one multiplication or division where the power is in range.

Written floating-point numbers have the fewest digits that read back.

## Main definitions

* `NumberLiteral`: A spelled number.
* `NumberLiteral.word?`, `NumberLiteral.float?`: What it stands for.
* `NumberLiteral.ofWord`, `NumberLiteral.ofFloat?`: How numbers are spelled.
-/

namespace TraceCommit

namespace Json

/-- The exponent of a spelled number. -/
structure Exponent where
  /-- Whether it carries a minus sign. -/
  negative : Bool
  /-- Its digits. -/
  digits : List Char
deriving DecidableEq, Repr

/-- A number as it is spelled. -/
structure NumberLiteral where
  /-- Whether it carries a minus sign. -/
  negative : Bool
  /-- The digits before the point. -/
  whole : List Char
  /-- The digits behind the point, if there is one. -/
  fraction : Option (List Char)
  /-- The exponent, if there is one. -/
  exponent : Option Exponent
deriving DecidableEq, Repr

/-- The number a decimal digit stands for. -/
def digitValue (c : Char) : Nat := c.toNat - 48

/-- The number a sequence of decimal digits stands for. -/
def digitsValue (digits : List Char) : Nat :=
  digits.foldl (fun n c => n * 10 + digitValue c) 0

/-- Appends digits to a number as long as it fits a word. Gives the number, how
    many digits were appended, and how many were left. -/
def appendDigits (significand used : Nat) : List Char → Nat × Nat × Nat
  | [] => (significand, used, 0)
  | c :: rest =>
    let next := significand * 10 + digitValue c
    if next < UInt64.size then appendDigits next (used + 1) rest
    else (significand, used, rest.length + 1)

/-- The power of ten with an exponent up to 308. -/
def powerOfTen (exponent : Nat) : Float := Float.ofScientific 1 false exponent

/-- The number times a power of ten, by steps of 308 where the exponent is out of
    range below. There is none if the result would be infinite. -/
def scaleByTens? : Nat → Float → Int → Option Float
  | 0, f, _ => some f
  | steps + 1, f, exponent =>
    if exponent.natAbs ≤ 308 then
      if 0 ≤ exponent then
        let scaled := f * powerOfTen exponent.natAbs
        if scaled.isInf then none else some scaled
      else some (f / powerOfTen exponent.natAbs)
    else if f == 0 then some f
    else if 0 ≤ exponent then none
    else scaleByTens? steps (f / powerOfTen 308) (exponent + 308)

/-- The number of non-negative exponents kept apart, `2 ^ 31`. -/
def exponentLimit : Nat := 2147483648

/-- The exponents kept apart: 32-bit signed numbers, at whose ends sums stop. -/
def clampExponent (e : Int) : Int :=
  max (-(exponentLimit : Int)) (min e ((exponentLimit : Int) - 1))

namespace NumberLiteral

/-- The word that a plain non-negative integer stands for. -/
def word? (n : NumberLiteral) : Option UInt64 :=
  if n.negative || n.fraction.isSome || n.exponent.isSome then none
  else
    let value := digitsValue n.whole
    if value < UInt64.size then some (UInt64.ofNat value) else none

/-- The magnitude of the floating-point number that is meant. -/
def magnitude? (n : NumberLiteral) : Option Float :=
  let (significand, _, dropped) := appendDigits 0 0 n.whole
  let (significand, used, _) := appendDigits significand 0 (n.fraction.getD [])
  -- Digits left out before the point raise the exponent, those taken from
  -- behind it lower it.
  let start : Int := dropped - used
  let f := (UInt64.ofNat significand).toFloat
  match n.exponent with
  | none => scaleByTens? 8 f start
  | some e =>
    let size := digitsValue e.digits
    if exponentLimit ≤ size then
      if significand ≠ 0 && !e.negative then none else some 0
    else scaleByTens? 8 f (clampExponent (if e.negative then start - size else start + size))

/-- The floating-point number that is meant. One too large for the format has no
    reading. -/
def float? (n : NumberLiteral) : Option Float :=
  n.magnitude?.map fun f => if n.negative then -f else f

/-- The spelling of a natural number. -/
def ofNat (n : Nat) : NumberLiteral := ⟨false, Nat.toDigits 10 n, none, none⟩

/-- The spelling of a word. -/
def ofWord (w : UInt64) : NumberLiteral := ofNat w.toNat

/-- The spelling of a decimal: positional from `1e-5` up to sixteen digits before
    the point and with at least one digit behind it, else with an exponent. -/
def ofDecimal (negative : Bool) (d : Decimal) : NumberLiteral :=
  let digits := Nat.toDigits 10 d.digits
  let point : Int := digits.length + d.exponent
  if 0 ≤ d.exponent ∧ point ≤ 16 then
    ⟨negative, digits ++ List.replicate d.exponent.toNat '0', some ['0'], none⟩
  else if 0 < point ∧ point ≤ 16 then
    ⟨negative, digits.take point.toNat, some (digits.drop point.toNat), none⟩
  else if -5 < point ∧ point ≤ 0 then
    ⟨negative, ['0'], some (List.replicate (-point).toNat '0' ++ digits), none⟩
  else
    let rest := digits.drop 1
    let power := point - 1
    ⟨negative, digits.take 1, if rest.isEmpty then none else some rest,
      some ⟨decide (power < 0), Nat.toDigits 10 power.natAbs⟩⟩

/-- The spelling of a floating-point number with the fewest digits that read
    back. Infinities and undefined results have none. -/
def ofFloat? (f : Float) : Option NumberLiteral :=
  let negative := f.toBits >>> 63 == 1
  let magnitude := (f.toBits &&& 0x7fffffffffffffff).toNat
  if 0x7ff0000000000000 ≤ magnitude then none
  else if magnitude = 0 then some ⟨negative, ['0'], some ['0'], none⟩
  else some (ofDecimal negative (RoundingInterval.ofBits magnitude).shortest)

/-- The text of a spelled number. An exponent always carries its sign. -/
def render (n : NumberLiteral) : List Char :=
  (if n.negative then ['-'] else []) ++ n.whole ++
    (match n.fraction with
      | some digits => '.' :: digits
      | none => []) ++
    (match n.exponent with
      | some e => 'e' :: (if e.negative then '-' else '+') :: e.digits
      | none => [])

end NumberLiteral

end Json

end TraceCommit
