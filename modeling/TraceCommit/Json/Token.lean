import TraceCommit.Json.Number
import TraceCommit.Text.Hex

/-!
# JSON Tokens

The tokens of a JSON document: brackets, braces, commas, colons, the three
words, numbers and strings, with blanks between them thrown away. A string may
escape half of a surrogate pair without the other half. No text has such a
string for its content, but a document may hold it in a place that is skipped,
so the token for it has no content instead of being refused.

## Main definitions

* `Token`: A token.
* `Token.render`: Its text.
* `Token.scan?`: The tokens of a text.
-/

namespace TraceCommit

namespace Json

/-- A token of a document. -/
inductive Token
  | openBracket
  | closeBracket
  | openBrace
  | closeBrace
  | comma
  | colon
  | null
  | bool (value : Bool)
  | number (literal : NumberLiteral)
  /-- A string; none for one with half of a surrogate pair. -/
  | string (content : Option String)
deriving DecidableEq, Repr

/-- The blanks between tokens: space, tab, line feed and carriage return. -/
def isBlank (c : Char) : Bool := c = ' ' || c = '\t' || c = '\n' || c = '\x0d'

/-- The code unit that four hexadecimal digits stand for. -/
def codeUnit? (a b c d : Char) : Option Nat := do
  let w ← Text.hexValue? a
  let x ← Text.hexValue? b
  let y ← Text.hexValue? c
  let z ← Text.hexValue? d
  return ((w * 16 + x) * 16 + y) * 16 + z

/-- Whether a code unit opens a surrogate pair. -/
def isHighSurrogate (n : Nat) : Bool := 0xd800 ≤ n && n ≤ 0xdbff

/-- Whether a code unit closes a surrogate pair. -/
def isLowSurrogate (n : Nat) : Bool := 0xdc00 ≤ n && n ≤ 0xdfff

/-- The character of a surrogate pair. -/
def ofSurrogates (high low : Nat) : Char :=
  Char.ofNat (0x10000 + (high - 0xd800) * 0x400 + (low - 0xdc00))

/-- The character that a one-letter escape stands for. -/
def escaped? (c : Char) : Option Char :=
  match c with
  | '"' => some '"'
  | '\\' => some '\\'
  | '/' => some '/'
  | 'b' => some '\x08'
  | 'f' => some '\x0c'
  | 'n' => some '\n'
  | 'r' => some '\x0d'
  | 't' => some '\t'
  | _ => none

/-- A piece of a string: a character, or a code unit that was escaped. -/
inductive Piece
  | char (c : Char)
  | unit (n : Nat)
deriving DecidableEq, Repr

/-- The pieces of a string after its opening quote, and the text behind its
    closing one. -/
def scanPieces : List Char → Option (List Piece × List Char)
  | [] => none
  | '"' :: rest => some ([], rest)
  | '\\' :: 'u' :: a :: b :: c :: d :: rest => do
    let unit ← codeUnit? a b c d
    let (pieces, rest) ← scanPieces rest
    return (.unit unit :: pieces, rest)
  | '\\' :: c :: rest => do
    let character ← escaped? c
    let (pieces, rest) ← scanPieces rest
    return (.char character :: pieces, rest)
  | c :: rest => do
    if c.toNat < 0x20 then none
    let (pieces, rest) ← scanPieces rest
    return (.char c :: pieces, rest)

/-- The characters of a string: two halves of a surrogate pair make one, and a
    half by itself makes none. -/
def joinPieces : List Piece → Option (List Char)
  | [] => some []
  | .char c :: rest => (joinPieces rest).map (c :: ·)
  | .unit high :: .unit low :: rest =>
    if isHighSurrogate high then
      if isLowSurrogate low then (joinPieces rest).map (ofSurrogates high low :: ·) else none
    else if isLowSurrogate high then none
    else (joinPieces (.unit low :: rest)).map (Char.ofNat high :: ·)
  | .unit n :: rest =>
    if isHighSurrogate n || isLowSurrogate n then none
    else (joinPieces rest).map (Char.ofNat n :: ·)

/-- The string after an opening quote, and the text behind its closing one. -/
def scanString (text : List Char) : Option (Option String × List Char) := do
  let (pieces, rest) ← scanPieces text
  return ((joinPieces pieces).map String.ofList, rest)

/-- The exponent at the head of a text, if one starts there. A letter without
    digits behind it is refused. -/
def scanExponent (text : List Char) : Option (Option Exponent × List Char) :=
  match text with
  | c :: rest =>
    if c = 'e' ∨ c = 'E' then
      let (negative, rest) :=
        match rest with
        | '+' :: rest => (false, rest)
        | '-' :: rest => (true, rest)
        | rest => (false, rest)
      let digits := rest.takeWhile Char.isDigit
      if digits.isEmpty then none
      else some (some ⟨negative, digits⟩, rest.dropWhile Char.isDigit)
    else some (none, text)
  | [] => some (none, text)

/-- The fraction at the head of a text, if a point stands there. A point without
    digits behind it is refused. -/
def scanFraction (text : List Char) : Option (Option (List Char) × List Char) :=
  match text with
  | '.' :: rest =>
    let digits := rest.takeWhile Char.isDigit
    if digits.isEmpty then none else some (some digits, rest.dropWhile Char.isDigit)
  | _ => some (none, text)

/-- The number at the head of a text. A leading zero stands alone before the
    point. -/
def scanNumber (text : List Char) : Option (NumberLiteral × List Char) := do
  let (negative, text) :=
    match text with
    | '-' :: rest => (true, rest)
    | _ => (false, text)
  let (whole, text) ←
    match text with
    | '0' :: rest => some (['0'], rest)
    | _ =>
      let digits := text.takeWhile Char.isDigit
      if digits.isEmpty then none else some (digits, text.dropWhile Char.isDigit)
  let (fraction, text) ← scanFraction text
  let (exponent, text) ← scanExponent text
  return (⟨negative, whole, fraction, exponent⟩, text)

/-- The token at the head of a text that starts with no blank, and the text
    behind it. -/
def scanToken (text : List Char) : Option (Token × List Char) :=
  match text with
  | '[' :: rest => some (.openBracket, rest)
  | ']' :: rest => some (.closeBracket, rest)
  | '\x7b' :: rest => some (.openBrace, rest)
  | '\x7d' :: rest => some (.closeBrace, rest)
  | ',' :: rest => some (.comma, rest)
  | ':' :: rest => some (.colon, rest)
  | '"' :: rest => (scanString rest).map fun (content, rest) => (.string content, rest)
  | 'n' :: 'u' :: 'l' :: 'l' :: rest => some (.null, rest)
  | 't' :: 'r' :: 'u' :: 'e' :: rest => some (.bool true, rest)
  | 'f' :: 'a' :: 'l' :: 's' :: 'e' :: rest => some (.bool false, rest)
  | _ => (scanNumber text).map fun (literal, rest) => (.number literal, rest)

/-- The tokens of a text. Every token takes at least one character, so the
    length of the text bounds their number. -/
def scanTokens : Nat → List Char → Option (List Token)
  | _, [] => some []
  | 0, _ :: _ => none
  | fuel + 1, c :: rest =>
    if isBlank c then scanTokens fuel rest
    else do
      let (token, rest) ← scanToken (c :: rest)
      return token :: (← scanTokens fuel rest)

/-- The tokens of a text, if it is made of tokens. -/
def Token.scan? (text : List Char) : Option (List Token) := scanTokens text.length text

/-- The text of a character inside a string: quotes, backslashes and control
    characters are escaped, everything else stands for itself. -/
def escapeChar (c : Char) : List Char :=
  if c = '"' then ['\\', '"']
  else if c = '\\' then ['\\', '\\']
  else if c = '\x08' then ['\\', 'b']
  else if c = '\x0c' then ['\\', 'f']
  else if c = '\n' then ['\\', 'n']
  else if c = '\x0d' then ['\\', 'r']
  else if c = '\t' then ['\\', 't']
  else if c.toNat < 0x20 then
    ['\\', 'u', '0', '0', Text.hexDigit (c.toNat / 16), Text.hexDigit (c.toNat % 16)]
  else [c]

/-- A string in quotes. -/
def quote (s : String) : List Char := '"' :: (s.toList.flatMap escapeChar ++ ['"'])

/-- The text of a token. A string without content is written as half of a pair. -/
def Token.render : Token → List Char
  | .openBracket => ['[']
  | .closeBracket => [']']
  | .openBrace => ['\x7b']
  | .closeBrace => ['\x7d']
  | .comma => [',']
  | .colon => [':']
  | .null => ['n', 'u', 'l', 'l']
  | .bool true => ['t', 'r', 'u', 'e']
  | .bool false => ['f', 'a', 'l', 's', 'e']
  | .number literal => literal.render
  | .string (some content) => quote content
  | .string none => ['"', '\\', 'u', 'd', '8', '0', '0', '"']

end Json

end TraceCommit
