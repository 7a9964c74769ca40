import TraceCommit.Json.Decode

/-!
# Codecs

A codec says how data of one type is written as a JSON value and read back.
Codecs of records are put together from those of their fields, so that the
names and the order of the fields stand in one place.

## Main definitions

* `Codec`: A writer and a reader.
* `Codec.word`, `Codec.float`, `Codec.text`, `Codec.list`, `Codec.choice`:
  Codecs of plain data.
* `Codec.toText`, `Codec.ofText?`: Documents.
-/

namespace TraceCommit

namespace Json

/-- How data is written and read. -/
structure Codec (α : Type) where
  /-- The value that data is written as. -/
  write : α → Value
  /-- The data that a value is read as. -/
  read? : Value → Option α

namespace Codec

variable {α : Type}

/-- Words as plain numbers. -/
def word : Codec UInt64 := ⟨Value.word, Value.word?⟩

/-- Floating-point numbers. -/
def float : Codec Float := ⟨Value.float, Value.float?⟩

/-- Texts as strings. -/
def text : Codec String := ⟨Value.text, Value.text?⟩

/-- Lists as arrays. -/
def list (item : Codec α) : Codec (List α) :=
  ⟨fun items => .array (items.map item.write), Value.listOf? item.read?⟩

/-- Choices as their names. -/
def choice (choices : List α) (name : α → String) : Codec α :=
  ⟨fun a => .text (name a), Value.choice? choices name⟩

/-- The document that holds the data and nothing else, without blanks. -/
def toText (codec : Codec α) (a : α) : String := (codec.write a).compact

/-- The data of a document, if it holds just that. -/
def ofText? (codec : Codec α) (text : String) : Option α :=
  (Value.ofText? text).bind codec.read?

end Codec

end Json

end TraceCommit
