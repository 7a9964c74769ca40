import TraceCommit.Json.Token

/-!
# JSON Values

A JSON value as a tree, the tokens it is written with, and the tree that a
sequence of tokens spells. Members of an object keep their order, and names
may repeat: it is for the reader of a value to say what that means.

## Main definitions

* `Value`: A value.
* `Value.tokens`, `Value.compact`, `Value.pretty`: How it is written.
* `Value.ofTokens?`, `Value.ofText?`: How it is read.
-/

namespace TraceCommit

namespace Json

/-- A value. -/
inductive Value
  | null
  | bool (value : Bool)
  | number (literal : NumberLiteral)
  /-- A string; none for one with half of a surrogate pair. -/
  | string (content : Option String)
  | array (items : List Value)
  | object (members : List (Option String × Value))

namespace Value

/-- A string with content. -/
def text (s : String) : Value := .string (some s)

/-- A word. -/
def word (w : UInt64) : Value := .number (.ofWord w)

/-- A floating-point number; those without a spelling are null. -/
def float (f : Float) : Value :=
  match NumberLiteral.ofFloat? f with
  | some literal => .number literal
  | none => .null

/-- An object with named members. -/
def record (members : List (String × Value)) : Value :=
  .object (members.map fun (name, value) => (some name, value))

mutual

/-- The tokens a value is written with. -/
def tokens : Value → List Token
  | .null => [.null]
  | .bool value => [.bool value]
  | .number literal => [.number literal]
  | .string content => [.string content]
  | .array items => .openBracket :: (itemTokens items ++ [.closeBracket])
  | .object members => .openBrace :: (memberTokens members ++ [.closeBrace])

/-- The tokens of the items of an array. -/
def itemTokens : List Value → List Token
  | [] => []
  | [item] => tokens item
  | item :: rest => tokens item ++ .comma :: itemTokens rest

/-- The tokens of the members of an object. -/
def memberTokens : List (Option String × Value) → List Token
  | [] => []
  | [(name, value)] => .string name :: .colon :: tokens value
  | (name, value) :: rest => .string name :: .colon :: (tokens value ++ .comma :: memberTokens rest)

end

/-- The text of a value without any blanks. -/
def compact (v : Value) : String := String.ofList (v.tokens.flatMap Token.render)

/-- A line break and an indentation by two blanks for each level. -/
def newline (depth : Nat) : List Char := '\n' :: List.replicate (2 * depth) ' '

mutual

/-- The text of a value with an item or member to a line. -/
def prettyAt (depth : Nat) : Value → List Char
  | .array [] => ['[', ']']
  | .array items => '[' :: (prettyItems (depth + 1) items ++ newline depth ++ [']'])
  | .object [] => ['\x7b', '\x7d']
  | .object members => '\x7b' :: (prettyMembers (depth + 1) members ++ newline depth ++ ['\x7d'])
  | .null => Token.null.render
  | .bool value => (Token.bool value).render
  | .number literal => literal.render
  | .string content => (Token.string content).render

/-- The items of an array, each on a line. -/
def prettyItems (depth : Nat) : List Value → List Char
  | [] => []
  | [item] => newline depth ++ prettyAt depth item
  | item :: rest => newline depth ++ prettyAt depth item ++ ',' :: prettyItems depth rest

/-- The members of an object, each on a line. -/
def prettyMembers (depth : Nat) : List (Option String × Value) → List Char
  | [] => []
  | [(name, value)] =>
    newline depth ++ (Token.string name).render ++ ':' :: ' ' :: prettyAt depth value
  | (name, value) :: rest =>
    newline depth ++ (Token.string name).render ++ ':' :: ' ' ::
      (prettyAt depth value ++ ',' :: prettyMembers depth rest)

end

/-- The text of a value with an item or member to a line. -/
def pretty (v : Value) : String := String.ofList (prettyAt 0 v)

mutual

/-- The value at the head of a sequence of tokens, and the tokens behind it. The
    first argument bounds the number of tokens. -/
def parse : Nat → List Token → Option (Value × List Token)
  | 0, _ => none
  | _, [] => none
  | _ + 1, .null :: rest => some (.null, rest)
  | _ + 1, .bool value :: rest => some (.bool value, rest)
  | _ + 1, .number literal :: rest => some (.number literal, rest)
  | _ + 1, .string content :: rest => some (.string content, rest)
  | _ + 1, .openBracket :: .closeBracket :: rest => some (.array [], rest)
  | fuel + 1, .openBracket :: rest =>
    (parseItems fuel rest).map fun (items, rest) => (.array items, rest)
  | _ + 1, .openBrace :: .closeBrace :: rest => some (.object [], rest)
  | fuel + 1, .openBrace :: rest =>
    (parseMembers fuel rest).map fun (members, rest) => (.object members, rest)
  | _ + 1, _ => none

/-- One or more items, up to the bracket that closes them. -/
def parseItems : Nat → List Token → Option (List Value × List Token)
  | 0, _ => none
  | fuel + 1, tokens =>
    match parse fuel tokens with
    | some (item, .closeBracket :: rest) => some ([item], rest)
    | some (item, .comma :: rest) =>
      (parseItems fuel rest).map fun (items, rest) => (item :: items, rest)
    | _ => none

/-- One or more members, up to the brace that closes them. -/
def parseMembers : Nat → List Token → Option (List (Option String × Value) × List Token)
  | 0, _ => none
  | fuel + 1, tokens =>
    match tokens with
    | .string name :: .colon :: rest =>
      match parse fuel rest with
      | some (value, .closeBrace :: rest) => some ([(name, value)], rest)
      | some (value, .comma :: rest) =>
        (parseMembers fuel rest).map fun (members, rest) => ((name, value) :: members, rest)
      | _ => none
    | _ => none

end

/-- The value that a sequence of tokens spells, if it spells just one. -/
def ofTokens? (tokens : List Token) : Option Value :=
  match parse (2 * tokens.length + 1) tokens with
  | some (value, []) => some value
  | _ => none

/-- The value that a text spells. -/
def ofText? (text : String) : Option Value := (Token.scan? text.toList).bind ofTokens?

end Value

end Json

end TraceCommit
