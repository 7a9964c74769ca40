/-!
# Hexadecimal Text

Bytes written as two lowercase hexadecimal digits each, and read back in
either case.

## Main definitions

* `Text.hexOfBytes`: The text of a list of bytes.
* `Text.bytesOfHex?`: The bytes of a text.
-/

namespace TraceCommit

namespace Text

/-- The lowercase digit of a number below sixteen. -/
def hexDigit (n : Nat) : Char :=
  if n < 10 then Char.ofNat (n + 48) else Char.ofNat (n + 87)

/-- The number a hexadecimal digit of either case stands for. -/
def hexValue? (c : Char) : Option Nat :=
  if '0' ≤ c ∧ c ≤ '9' then some (c.toNat - 48)
  else if 'a' ≤ c ∧ c ≤ 'f' then some (c.toNat - 87)
  else if 'A' ≤ c ∧ c ≤ 'F' then some (c.toNat - 55)
  else none

/-- The two digits of a byte. -/
def hexDigitsOfByte (b : UInt8) : List Char := [hexDigit (b.toNat / 16), hexDigit (b.toNat % 16)]

/-- Bytes as lowercase hexadecimal digits, two for each. -/
def hexOfBytes (bytes : List UInt8) : String := String.ofList (bytes.flatMap hexDigitsOfByte)

/-- Pairs of digits as bytes. -/
def bytesOfDigits? : List Char → Option (List UInt8)
  | [] => some []
  | [_] => none
  | high :: low :: rest => do
    let h ← hexValue? high
    let l ← hexValue? low
    return UInt8.ofNat (h * 16 + l) :: (← bytesOfDigits? rest)

/-- The bytes of a text of hexadecimal digits, two for each. -/
def bytesOfHex? (s : String) : Option (List UInt8) := bytesOfDigits? s.toList

end Text

end TraceCommit
