import TraceCommit.Field.Element
import TraceCommit.Hash.Blake3

/-!
# Poseidon Parameters

The parameter set of the Poseidon permutation over the Goldilocks field: a
state of twelve elements, eight full rounds around twenty-two partial ones,
the S-box `x ^ 7`, and a linear layer made of a circulant matrix and a
diagonal. The round constants are the first canonical words of a BLAKE3 key
derivation stream.

## Main definitions

* `Poseidon.width`, `Poseidon.rate`, `Poseidon.totalRounds`: Sizes.
* `Poseidon.circulant`, `Poseidon.diagonal`: The linear layer.
* `Poseidon.State`, `Poseidon.RoundConstants`: Twelve elements; thirty rounds.
* `Poseidon.roundConstants`: The derived constants.
-/

namespace TraceCommit

namespace Poseidon

/-- The number of elements of a state. -/
def width : Nat := 12

/-- The number of elements absorbed by one permutation. -/
def rate : Nat := 8

/-- The number of elements that input never overwrites. -/
def capacity : Nat := width - rate

/-- The number of elements of a digest. -/
def digestElements : Nat := 4

/-- The full rounds before, and again after, the partial ones. -/
def halfFullRounds : Nat := 4

/-- The rounds with a single S-box. -/
def partialRounds : Nat := 22

/-- All rounds. -/
def totalRounds : Nat := 2 * halfFullRounds + partialRounds

/-- The exponent of the S-box. -/
def alpha : Nat := 7

/-- The name of the parameter set, also the key material of its constants. -/
def parametersId : String := "poseidon-goldilocks-t12-r8-c4-alpha7-rf8-rp22"

/-- The key derivation context of the round constants. -/
def constantsContext : String := "stark-perf poseidon goldilocks t12 round constants v1"

/-- The first row of the circulant matrix. -/
def circulant : Vector UInt64 12 := #v[17, 15, 41, 16, 2, 28, 13, 13, 39, 18, 34, 20]

/-- The diagonal added to the circulant matrix. -/
def diagonal : Vector UInt64 12 := #v[8, 0, 0, 0, 0, 0, 0, 0, 0, 0, 0, 0]

/-- The state of the permutation. -/
abbrev State := Vector Element 12

/-- The constants of all rounds, one state for each. -/
abbrev RoundConstants := Vector State 30

/-- The number of stream blocks read for the constants. They hold 512 words, of
    which 360 are needed, and a word is skipped with probability `2 ^ -32`. -/
def constantsBlocks : Nat := 64

/-- The canonical words at the start of the key derivation stream. -/
def constantStream : Array Element :=
  ((Blake3.deriveKey constantsContext parametersId).words constantsBlocks).filterMap
    Element.ofWord? |>.toArray

/-- The round constants: the stream's canonical words, twelve to a round. -/
def roundConstants : RoundConstants :=
  let stream := constantStream
  Vector.ofFn fun r => Vector.ofFn fun i => stream.getD (r * 12 + i) 0

end Poseidon

end TraceCommit
