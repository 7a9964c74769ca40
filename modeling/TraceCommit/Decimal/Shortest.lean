/-!
# Shortest Decimals

The shortest decimal that reads back as a given binary floating-point number,
and of the decimals of that length the one nearest to it. A finite binary
number is `m * 2 ^ q`, and the reals that round to it form an interval whose
ends are half way to its neighbours; the ends belong to it exactly when `m` is
even. If a grid of decimals has a point in the interval, it has one among the
two neighbours of the number itself, so these two are all that is tested, on
the grids of one digit, two digits and so on. Seventeen digits always suffice.

## Main definitions

* `Decimal`: A number `digits * 10 ^ exponent`.
* `RoundingInterval`: A number and the reals that round to it.
* `RoundingInterval.ofBits`: That of a 64-bit floating-point number.
* `RoundingInterval.shortest`: The shortest decimal in it.
-/

namespace TraceCommit

/-- The number `digits * 10 ^ exponent`. -/
structure Decimal where
  /-- The digits, as a number. -/
  digits : Nat
  /-- The power of ten they are multiplied by. -/
  exponent : Int
deriving DecidableEq, Repr

/-- A positive number and the interval of reals that round to it, as fractions
    with one denominator. -/
structure RoundingInterval where
  /-- The numerator of the lower end. -/
  low : Nat
  /-- The numerator of the number. -/
  value : Nat
  /-- The numerator of the upper end. -/
  high : Nat
  /-- The common denominator. -/
  denominator : Nat
  /-- Whether the ends belong to the interval. -/
  closed : Bool

namespace RoundingInterval

/-- The interval of the number `m * 2 ^ q`. The number below a power of two is
    nearer than the one above, unless the spacing is already the smallest. -/
def ofParts (m : Nat) (q : Int) (lowerIsNearer : Bool) : RoundingInterval :=
  let scale := 1 <<< (q - 2).toNat
  { low := (4 * m - (if lowerIsNearer then 1 else 2)) * scale
    value := 4 * m * scale
    high := (4 * m + 2) * scale
    denominator := 1 <<< (2 - q).toNat
    closed := m % 2 = 0 }

/-- The number of fractions that share an exponent, `2 ^ 52`. -/
def fractionCount : Nat := 4503599627370496

/-- The interval of a positive finite 64-bit floating-point number, by the bits
    of its magnitude. -/
def ofBits (bits : Nat) : RoundingInterval :=
  let fraction : Nat := bits % fractionCount
  let biased : Nat := bits / fractionCount
  if biased = 0 then ofParts fraction (-1074) false
  else ofParts (fraction + fractionCount) ((biased : Int) - 1075) (fraction = 0 && biased ≠ 1)

/-- Whether `c * 10 ^ t` lies in the interval. -/
def contains (r : RoundingInterval) (c : Nat) (t : Int) : Bool :=
  let point := c * Nat.pow 10 t.toNat * r.denominator
  let unit := Nat.pow 10 (-t).toNat
  if r.closed then r.low * unit ≤ point && point ≤ r.high * unit
  else r.low * unit < point && point < r.high * unit

/-- The largest `e` with `10 ^ e` at most the number: the number of digits before
    the point less one, or the first place behind it. The fuel bounds the
    search for that place. -/
def leadingPlace (r : RoundingInterval) : Nat → Nat → Int
  | 0, place => -place
  | fuel + 1, place =>
    if r.denominator ≤ r.value * Nat.pow 10 place then
      if place = 0 then (Nat.toDigits 10 (r.value / r.denominator)).length - 1 else -place
    else leadingPlace r fuel (place + 1)

/-- The neighbour of the number on the grid of multiples of `10 ^ t` that lies in
    the interval, the nearer one if both do, and of two as near the even one. -/
def onGrid? (r : RoundingInterval) (t : Int) : Option Nat :=
  let numerator := r.value * Nat.pow 10 (-t).toNat
  let denominator := r.denominator * Nat.pow 10 t.toNat
  let below := numerator / denominator
  let rest := numerator % denominator
  -- The number lies between below and below + 1 in units of the grid.
  let preferBelow := 2 * rest < denominator || (2 * rest = denominator && below % 2 = 0)
  let inBelow := r.contains below t
  let inAbove := r.contains (below + 1) t
  if inBelow && (preferBelow || !inAbove) then some below
  else if inAbove then some (below + 1)
  else none

/-- Tries the grids of more and more digits. -/
def search (r : RoundingInterval) (lead : Int) : Nat → Nat → Decimal
  | 0, count => ⟨r.value * Nat.pow 10 count / r.denominator, -count⟩
  | fuel + 1, count =>
    let t := lead - count
    match r.onGrid? t with
    | some c => ⟨c, t⟩
    | none => search r lead fuel (count + 1)

/-- Moves trailing zeros of the digits into the exponent. -/
def stripZeros : Nat → Decimal → Decimal
  | 0, d => d
  | fuel + 1, d =>
    if d.digits ≠ 0 ∧ d.digits % 10 = 0 then stripZeros fuel ⟨d.digits / 10, d.exponent + 1⟩
    else d

/-- The shortest decimal in the interval, nearest to the number. -/
def shortest (r : RoundingInterval) : Decimal :=
  stripZeros 20 (r.search (r.leadingPlace 400 0) 17 0)

end RoundingInterval

end TraceCommit
