import TraceCommit.Hash.Poseidon.Parameters

/-!
# The Poseidon Permutation

Each round adds its constants, applies the S-box to the whole state or, in a
partial round, to its first element, and multiplies by the matrix of the
linear layer. Row `r` of that matrix holds the circulant's coefficient `i` in
column `(r + i) mod 12`, plus the diagonal.

The linear layer multiplies canonical words by small coefficients and sums the
products in 128-bit accumulators before a single reduction per row.

## Main definitions

* `Poseidon.mix`: The linear layer.
* `Poseidon.mixRowChecked`: A row of it in arithmetic that reports overflows.
* `Poseidon.fullRound`, `Poseidon.partialRound`: The two kinds of round.
* `Poseidon.permute`: The permutation, for any round constants.
-/

namespace TraceCommit

namespace Poseidon

/-- The S-box `x ^ 7`. -/
def sbox (x : Element) : Element :=
  let x2 := x.square
  let x4 := x2.square
  let x3 := x * x2
  x3 * x4

/-- Adds the constants of a round. -/
def addConstants (constants s : State) : State := Vector.zipWith (· + ·) s constants

/-- The accumulator of row `row` of the linear layer. -/
def mixRow (raw : Vector UInt64 12) (row : Fin 12) : Wide :=
  let circulantPart := Nat.fold 12 (fun i h acc =>
    acc.add (.product (raw.get (Fin.ofNat 12 (i + row.val))) circulant[i]))
    (Wide.ofWord 0)
  circulantPart.add (.product raw[row] diagonal[row])

/-- The accumulator of a row, with every addition checked. -/
def mixRowChecked (raw : Vector UInt64 12) (row : Fin 12) : Except Violation Wide := do
  let circulantPart ← (List.finRange 12).foldlM (fun acc i =>
    acc.addChecked (.product (raw.get (Fin.ofNat 12 (i.val + row.val))) circulant[i]))
    (Wide.ofWord 0)
  circulantPart.addChecked (.product raw[row] diagonal[row])

/-- The linear layer. -/
def mix (s : State) : State :=
  let raw := s.map Element.val
  Vector.ofFn fun row => .ofWide (mixRow raw row)

/-- A round with an S-box on every element. -/
def fullRound (s constants : State) : State := mix ((addConstants constants s).map sbox)

/-- A round with an S-box on the first element. -/
def partialRound (s constants : State) : State :=
  let s := addConstants constants s
  mix (s.set 0 (sbox s[0]))

/-- The permutation with the given round constants. -/
def permute (constants : RoundConstants) (s : State) : State :=
  let rows := constants.toList
  let s := (rows.take halfFullRounds).foldl fullRound s
  let s := ((rows.drop halfFullRounds).take partialRounds).foldl partialRound s
  (rows.drop (halfFullRounds + partialRounds)).foldl fullRound s

end Poseidon

end TraceCommit
