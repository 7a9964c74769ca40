import TraceCommit.Violation

/-!
# Room for Sequences

A sequence lies in memory in one piece, and no piece is longer than
`2 ^ 63 - 1` bytes. A length that comes from outside can be any 64-bit number,
so the room for it is asked for before anything of that length is made, and a
length that no memory holds is refused.

Items that have been put somewhere take memory there, which bounds their number.
Only items that take no bytes at all are not bounded in this way: of those there
can be more than a word counts.

## Main definitions

* `Item`: Items with a size, one of them a default.
* `maxSequenceBytes`: The most bytes that a sequence takes.
* `requireRoom`: Refuses a sequence that would take more.

## Theorems

* `requireRoom_eq_ok_iff`: There is room exactly up to the limit.
-/

namespace TraceCommit

/-- Items of one size, one of which stands where nothing else has been put yet. -/
class Item (α : Type) extends Inhabited α where
  /-- The bytes that an item takes. -/
  bytes : Nat

/-- The most bytes that a sequence takes, `2 ^ 63 - 1`. -/
def maxSequenceBytes : Nat := 9223372036854775807

/-- The bytes that a sequence takes as an item of another one, whatever its
    length: where it lies, how long it is, and for how much there is room. -/
def sequenceHandleBytes : Nat := 24

/-- Asks for the room of `count` items of `itemBytes` bytes each. -/
def requireRoom (itemBytes count : Nat) : Except Violation Unit :=
  if itemBytes * count ≤ maxSequenceBytes then .ok () else .error .noRoom

/-- There is room exactly for the sequences within the limit. -/
theorem requireRoom_eq_ok_iff {itemBytes count : Nat} :
    requireRoom itemBytes count = .ok () ↔ itemBytes * count ≤ maxSequenceBytes := by
  unfold requireRoom
  split
  · rename_i h
    exact ⟨fun _ => h, fun _ => rfl⟩
  · rename_i h
    exact ⟨fun he => absurd he (by intro hc; cases hc), fun hle => absurd hle h⟩

end TraceCommit
