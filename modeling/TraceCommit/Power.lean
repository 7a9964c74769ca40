/-!
# Powers by Squaring

Square-and-multiply over 64-bit exponents, for any multiplication with a
squaring of its own. The field and its extension share it.

## Main definitions

* `powerBySquaring`: A power with a 64-bit exponent.
* `squareTimes`: Repeated squaring, a power with exponent `2 ^ k`.
-/

namespace TraceCommit

variable {α : Type}

/-- Multiplies the powers `base ^ (2 ^ i)` selected by the exponent's bits, low
    bits first, into `result`. The first argument bounds the number of bits. -/
def selectPowers (mul : α → α → α) (square : α → α) :
    Nat → α → α → UInt64 → α
  | 0, result, _, _ => result
  | bits + 1, result, base, exponent =>
    if exponent = 0 then result
    else
      selectPowers mul square bits
        (if exponent &&& 1 = 1 then mul result base else result)
        (square base) (exponent >>> 1)

/-- The product of `exponent` copies of `base`; no copies give `one`. -/
def powerBySquaring (one : α) (mul : α → α → α) (square : α → α)
    (base : α) (exponent : UInt64) : α :=
  selectPowers mul square 64 one base exponent

/-- Squares `count` times over. -/
def squareTimes (square : α → α) : Nat → α → α
  | 0, x => x
  | count + 1, x => squareTimes square count (square x)

end TraceCommit
