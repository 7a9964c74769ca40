/-!
# Numbers Given as Text

How a 64-bit word typed by a user is read: decimal digits, of which there must
be at least one, behind an optional plus sign. Leading zeros are fine, blanks
are not. Digits are read from the left, and the first thing that is wrong is
the one reported.

## Main definitions

* `Text.NumberRefusal`: What is wrong with a number.
* `Text.wordOf`: The word that a text spells.
-/

namespace TraceCommit

namespace Text

/-- What is wrong with a number. -/
inductive NumberRefusal
  /-- There is nothing to read. -/
  | empty
  /-- A character is not a decimal digit, or there are none behind the sign. -/
  | invalidDigit
  /-- The number does not fit a word. -/
  | tooLarge
deriving DecidableEq, Repr

/-- The wording of a refused number. -/
def NumberRefusal.message : NumberRefusal → String
  | .empty => "cannot parse integer from empty string"
  | .invalidDigit => "invalid digit found in string"
  | .tooLarge => "number too large to fit in target type"

/-- Appends decimal digits to a number that fits a word. -/
def readDigits (n : Nat) : List Char → Except NumberRefusal Nat
  | [] => .ok n
  | c :: rest =>
    if c.isDigit then
      let next := n * 10 + (c.toNat - 48)
      if next < UInt64.size then readDigits next rest else .error .tooLarge
    else .error .invalidDigit

/-- The word that a text spells. -/
def wordOf (text : String) : Except NumberRefusal UInt64 :=
  match text.toList with
  | [] => .error .empty
  | ['+'] => .error .invalidDigit
  | '+' :: digits => UInt64.ofNat <$> readDigits 0 digits
  | digits => UInt64.ofNat <$> readDigits 0 digits

end Text

end TraceCommit
