import TraceCommit.Json.Value
import TraceCommit.Text.Name

/-!
# Reading Values

How values are read as data. A record may be written as an object, or as an
array of its fields in order. In an object a field must not repeat; members
that name no field are passed over, unless the record is closed. An optional
field may be missing or null. A choice between names is written as the name,
or as an object whose single member has that name and is null.

## Main definitions

* `Value.word?`, `Value.float?`, `Value.text?`, `Value.listOf?`: Plain data.
* `Value.record?`: The fields of a record.
* `required`, `optional`: One field.
* `Value.choice?`: A choice between names.
-/

namespace TraceCommit

namespace Json

namespace Value

/-- The word that the value is. -/
def word? : Value → Option UInt64
  | .number literal => literal.word?
  | _ => none

/-- The floating-point number that the value is. Integers count. -/
def float? : Value → Option Float
  | .number literal => literal.float?
  | _ => none

/-- The text that the value is. -/
def text? : Value → Option String
  | .string content => content
  | _ => none

/-- The items of an array, each read the same way. -/
def listOf? {α : Type} (read : Value → Option α) : Value → Option (List α)
  | .array items => items.mapM read
  | _ => none

/-- Puts a member into the slot of the field it names. -/
def placeMember (names : List String) (closed : Bool) (slots : List (Option Value))
    (member : Option String × Value) : Option (List (Option Value)) :=
  match member.1 with
  | none => none
  | some name =>
    match names.findIdx? (· == name) with
    | none => if closed then none else some slots
    | some i =>
      match slots.getD i none with
      | some _ => none
      | none => some (slots.set i (some member.2))

/-- The fields of a record with the given names, in their order; a field that is
    not there is none. A closed record has no other members. -/
def record? (names : List String) (closed : Bool) : Value → Option (List (Option Value))
  | .array items =>
    if items.length ≤ names.length then
      some (items.map some ++ List.replicate (names.length - items.length) none)
    else none
  | .object members =>
    members.foldlM (placeMember names closed) (List.replicate names.length none)
  | _ => none

/-- The choice that the value names. -/
def choice? {α : Type} (choices : List α) (name : α → String) : Value → Option α
  | .string (some text) => Text.named? choices name text
  | .object [(some text, .null)] => Text.named? choices name text
  | _ => none

end Value

/-- A field that must be there. -/
def required {α : Type} (read : Value → Option α) (field : Option Value) : Option α :=
  field.bind read

/-- A field that may be missing or null. -/
def optional {α : Type} (read : Value → Option α) : Option Value → Option (Option α)
  | none => some none
  | some .null => some none
  | some value => (read value).map some

end Json

end TraceCommit
