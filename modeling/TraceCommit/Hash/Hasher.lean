import TraceCommit.Field.Element
import TraceCommit.Text.Hex
import TraceCommit.Text.Name

/-!
# Hashers

What a commitment needs of a hash: digests of rows of field elements, and the
compression of two digests into one. A tree is built with one hasher
throughout, and everything about trees holds for any of them.

Rows no larger than a digest are not hashed at all: they are padded with zeros
and stand for themselves.

## Main definitions

* `Hasher`: A hash over digests of some type.
* `HashFamily`: The hashes that a configuration can name.
* `HashFamily.ofText`: Reads a hash's name.
-/

namespace TraceCommit

/-- A hash with digests of type `δ`. -/
structure Hasher (δ : Type) where
  /-- The short name that reports use. -/
  name : String
  /-- The number of bytes of a digest. -/
  digestBytes : Nat
  /-- The digest of nothing but zeros. -/
  zero : δ
  /-- Hashes a row of any length. -/
  hash : Array Element → δ
  /-- Hashes a row, or pads it to a digest if it is no larger than one. -/
  hashRow : Array Element → δ
  /-- Compresses a left and a right digest into one. -/
  compress : δ → δ → δ
  /-- The bytes of a digest. -/
  bytes : δ → List UInt8

/-- The lowercase hexadecimal text of a digest. -/
def Hasher.hex {δ : Type} (h : Hasher δ) (digest : δ) : String :=
  Text.hexOfBytes (h.bytes digest)

/-- The hashes that a configuration can name. -/
inductive HashFamily
  | poseidon
  | keccak
deriving DecidableEq, Repr

/-- Both hashes. -/
def HashFamily.all : List HashFamily := [.poseidon, .keccak]

/-- The name of a hash. -/
def HashFamily.name : HashFamily → String
  | .poseidon => "poseidon"
  | .keccak => "keccak"

/-- A hash name that is not known. -/
structure UnknownHash where
  /-- The text given. -/
  name : String
deriving DecidableEq, Repr

/-- The wording for a hash name that is not known. -/
def UnknownHash.message (e : UnknownHash) : String :=
  s!"unknown hash `{e.name}`, expected poseidon or keccak"

/-- Reads a hash's name. -/
def HashFamily.ofText (text : String) : Except UnknownHash HashFamily :=
  match Text.foldName text with
  | "poseidon" => .ok .poseidon
  | "keccak" => .ok .keccak
  | _ => .error ⟨text⟩

end TraceCommit
