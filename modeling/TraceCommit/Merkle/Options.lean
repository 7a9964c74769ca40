import TraceCommit.Text.Name
import TraceCommit.Violation

/-!
# Tree Options and Errors

A tree is binary over a power of two of leaves. Any other number of leaves is
refused or filled up by repeating the last one, as the padding policy says.
The cap height says how far below the root openings stop.

## Main definitions

* `PaddingPolicy`, `MerkleConfig`: The options.
* `MerkleError`: Why a commitment or an opening is refused.
* `PaddingPolicy.ofText`: Reads a policy's name.
-/

namespace TraceCommit

/-- What is done about a number of leaves that is not a power of two. -/
inductive PaddingPolicy
  /-- It is refused. -/
  | reject
  /-- The last leaf digest is repeated up to the next power of two. -/
  | duplicateLast
deriving DecidableEq, Repr

/-- Both policies. -/
def PaddingPolicy.all : List PaddingPolicy := [.reject, .duplicateLast]

/-- The name of a policy. -/
def PaddingPolicy.name : PaddingPolicy → String
  | .reject => "reject"
  | .duplicateLast => "duplicate-last"

/-- A policy name that is not known, trimmed and in lower case. -/
structure UnknownPadding where
  /-- The text given, in the form in which it was compared. -/
  name : String
deriving DecidableEq, Repr

/-- The wording for a policy name that is not known. -/
def UnknownPadding.message (e : UnknownPadding) : String :=
  s!"unknown padding policy `{e.name}`"

/-- Reads a policy's name. The one with two words may join them either way. -/
def PaddingPolicy.ofText (text : String) : Except UnknownPadding PaddingPolicy :=
  match Text.foldName text with
  | "reject" => .ok .reject
  | "duplicate-last" => .ok .duplicateLast
  | "duplicate_last" => .ok .duplicateLast
  | other => .error ⟨other⟩

/-- The shape of a tree. -/
structure MerkleConfig where
  /-- The cap holds `2 ^ capHeight` nodes; zero makes it the root. -/
  capHeight : UInt64
  /-- What is done about odd numbers of leaves. -/
  padding : PaddingPolicy
deriving DecidableEq, Repr

/-- The default shape: the cap is the root, and padding is refused. -/
def MerkleConfig.standard : MerkleConfig := ⟨0, .reject⟩

/-- Why a commitment or an opening is refused. -/
inductive MerkleError
  /-- There are no leaves. -/
  | emptyCommitment
  /-- The number of leaves is not a power of two, and padding is refused. -/
  | invalidLeafCount (count : Nat)
  /-- There is no such leaf. -/
  | indexOutOfRange (index : UInt64) (leafCount : Nat)
  /-- The cap would lie below the leaves. -/
  | capHeightTooLarge (capHeight : UInt64) (height : Nat)
  /-- The opening leads to another cap node. -/
  | verificationFailed
  /-- A calling contract was broken on the way. -/
  | violation (broken : Violation)
deriving DecidableEq, Repr

/-- The wording of a tree error. -/
def MerkleError.message? : MerkleError → Option String
  | .emptyCommitment => some "cannot commit to an empty leaf sequence"
  | .invalidLeafCount count =>
    some s!"leaf count {count} is not a power of two and padding is disabled"
  | .indexOutOfRange index leafCount =>
    some s!"leaf index {index} out of range for {leafCount} leaves"
  | .capHeightTooLarge capHeight height =>
    some s!"cap height {capHeight} exceeds tree height {height}"
  | .verificationFailed => some "merkle opening does not match the commitment"
  | .violation broken => broken.message?

instance : MonadLift (Except Violation) (Except MerkleError) :=
  ⟨Except.mapError .violation⟩

end TraceCommit
