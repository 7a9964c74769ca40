import TraceCommit.Hash.Hasher
import TraceCommit.Hash.Poseidon.Permutation

/-!
# The Poseidon Sponge

Digests of four elements. The sponge absorbs eight elements at a time by
overwriting the front of the state, and its digest is the front of the state
after the last permutation. Nothing is permuted for an empty row, whose digest
is zero.

## Main definitions

* `PoseidonDigest`: Four elements.
* `Poseidon.absorb`, `Poseidon.hash`: The sponge.
* `Poseidon.compress`: Two digests to one.
* `Hasher.poseidon`: The hasher.
-/

namespace TraceCommit

/-- A digest of four elements. -/
structure PoseidonDigest where
  /-- The elements. -/
  elements : Vector Element 4
deriving DecidableEq

namespace Poseidon

/-- The digest at the front of a state. -/
def squeeze (s : State) : PoseidonDigest := ⟨Vector.ofFn fun i => s[i.val]⟩

/-- Overwrites the front of a state. -/
def overwrite (s : State) (front : List Element) : State :=
  Vector.ofFn fun i => front.getD i.val (s.get i)

/-- Absorbs a row, eight elements at a time. -/
def absorb (constants : RoundConstants) (s : State) (row : List Element) : State :=
  if row.isEmpty then s
  else absorb constants (permute constants (overwrite s (row.take rate))) (row.drop rate)
termination_by row.length
decreasing_by
  rename_i h
  have hpos : 0 < row.length := by
    cases row with
    | nil => exact absurd rfl h
    | cons x rest => exact Nat.succ_pos _
  rw [List.length_drop]
  have : rate = 8 := rfl
  omega

/-- The digest of a row of any length. -/
def hash (constants : RoundConstants) (row : Array Element) : PoseidonDigest :=
  squeeze (absorb constants (Vector.replicate 12 0) row.toList)

/-- The digest of a row, which stands for itself up to four elements. -/
def hashRow (constants : RoundConstants) (row : Array Element) : PoseidonDigest :=
  if row.size ≤ digestElements then ⟨Vector.ofFn fun i => row.getD i 0⟩
  else hash constants row

/-- The compression of two digests: both side by side, zeros behind them, and
    one permutation. -/
def compress (constants : RoundConstants) (left right : PoseidonDigest) : PoseidonDigest :=
  squeeze (permute constants
    (overwrite (Vector.replicate 12 0) (left.elements.toList ++ right.elements.toList)))

end Poseidon

/-- The bytes of a digest: those of its elements. -/
def PoseidonDigest.bytes (d : PoseidonDigest) : List UInt8 :=
  d.elements.toList.flatMap Element.toBytes

/-- The Poseidon hasher with the given round constants. -/
def Hasher.poseidonWith (constants : Poseidon.RoundConstants) : Hasher PoseidonDigest where
  name := HashFamily.poseidon.name
  digestBytes := Poseidon.digestElements * Element.byteCount
  zero := ⟨Vector.replicate 4 0⟩
  hash := Poseidon.hash constants
  hashRow := Poseidon.hashRow constants
  compress := Poseidon.compress constants
  bytes := PoseidonDigest.bytes

/-- The Poseidon hasher. -/
def Hasher.poseidon : Hasher PoseidonDigest := .poseidonWith Poseidon.roundConstants

end TraceCommit
