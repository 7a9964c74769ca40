import TraceCommit.Chunks
import TraceCommit.Hash.Hasher
import TraceCommit.Hash.Keccak.Permutation

/-!
# The Keccak Sponge

Keccak-256 over bytes, with its own padding rule: a one bit behind the input
and another at the end of the last block. Digests are the first `n` of its 32
bytes. A row of field elements is hashed as the bytes of its elements, and a
row no longer than a digest is padded with zero bytes instead.

## Main definitions

* `KeccakDigest`: A digest of `n` bytes.
* `Keccak.hashBytes`: The 32 bytes of Keccak-256.
* `Hasher.keccak`: The hasher with digests of `n` bytes.
-/

namespace TraceCommit

/-- A digest of `n` bytes. -/
structure KeccakDigest (n : Nat) where
  /-- The bytes. -/
  bytes : Vector UInt8 n
deriving DecidableEq

namespace Keccak

/-- The number of bytes absorbed by one permutation. -/
def rate : Nat := 136

/-- The digest length that commitments use unless told otherwise. -/
def defaultDigestBytes : Nat := 25

/-- The input followed by its padding, which fills the last block. -/
def pad (input : Array UInt8) : Array UInt8 :=
  let zeros := rate - 1 - input.size % rate
  let padded := (input.push 0x01) ++ Array.replicate zeros 0
  padded.modify (padded.size - 1) (· ||| 0x80)

/-- The state with a block of input added to its first lanes, permuted. -/
def absorbBlock (s : State) (block : Array UInt8) : State :=
  permute (Vector.ofFn fun i =>
    if i.val < rate / 8 then
      s.get i ^^^ Element.wordOfBytes (block.extract (8 * i.val) (8 * i.val + 8)).toList
    else s.get i)

/-- The 32 bytes of Keccak-256. -/
def hashBytes (input : Array UInt8) : List UInt8 :=
  let s := (chunksOf rate (pad input)).foldl absorbBlock (Vector.replicate 25 0)
  (s.toList.take 4).flatMap Element.wordBytes

/-- The first `n` bytes of a list, with zeros behind it if it is shorter. -/
def truncate (n : Nat) (bytes : List UInt8) : KeccakDigest n :=
  let bytes := bytes.toArray
  ⟨Vector.ofFn fun i => bytes.getD i 0⟩

/-- The bytes of a row of elements. -/
def rowBytes (row : Array Element) : List UInt8 := row.toList.flatMap Element.toBytes

end Keccak

/-- The Keccak hasher with digests of `n` bytes, for `n` from 1 to 32. -/
def Hasher.keccak (n : Nat) : Hasher (KeccakDigest n) where
  name := HashFamily.keccak.name
  digestBytes := n
  zero := ⟨Vector.replicate n 0⟩
  hash row := Keccak.truncate n (Keccak.hashBytes (Keccak.rowBytes row).toArray)
  hashRow row :=
    let bytes := Keccak.rowBytes row
    if bytes.length ≤ n then Keccak.truncate n bytes
    else Keccak.truncate n (Keccak.hashBytes bytes.toArray)
  compress left right :=
    Keccak.truncate n (Keccak.hashBytes (left.bytes.toArray ++ right.bytes.toArray))
  bytes digest := digest.bytes.toList

end TraceCommit
