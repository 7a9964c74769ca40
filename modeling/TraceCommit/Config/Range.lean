import TraceCommit.Json.Codec

/-!
# Inclusive Ranges

A range of sizes or rates by its two ends, both included. Nothing keeps the
first end from exceeding the second; such a range is empty.

## Main definitions

* `InclusiveRange`: The two ends.
* `InclusiveRange.numbers`, `InclusiveRange.firstNumbers`: What it contains.
* `InclusiveRange.codec`: How it is stored.
-/

namespace TraceCommit

open Json

/-- A range of words by its two ends. -/
structure InclusiveRange where
  /-- The least number. -/
  min : UInt64
  /-- The greatest number. -/
  max : UInt64
deriving DecidableEq, Repr

namespace InclusiveRange

/-- The range of one number. -/
def single (n : UInt64) : InclusiveRange := ⟨n, n⟩

/-- Whether the range contains nothing. -/
def isEmpty (r : InclusiveRange) : Bool := r.max < r.min

/-- Whether the range contains a number. -/
def contains (r : InclusiveRange) (n : UInt64) : Bool := r.min ≤ n && n ≤ r.max

/-- How many numbers the range contains. -/
def size (r : InclusiveRange) : Nat := r.max.toNat + 1 - r.min.toNat

/-- The least numbers of the range in ascending order, at most `count` of them. -/
def firstNumbers (r : InclusiveRange) (count : Nat) : List UInt64 :=
  (List.range' r.min.toNat (Nat.min count r.size)).map UInt64.ofNat

/-- The numbers of the range in ascending order. -/
def numbers (r : InclusiveRange) : List UInt64 := r.firstNumbers r.size

/-- A range as a record of its ends. -/
def codec : Codec InclusiveRange where
  write r := .record [("min", .word r.min), ("max", .word r.max)]
  read? v := do
    match ← v.record? ["min", "max"] false with
    | [min, max] => return ⟨← required Value.word? min, ← required Value.word? max⟩
    | _ => none

end InclusiveRange

end TraceCommit
