import TraceCommit.Field.Element

/-!
# The Keccak Permutation

Keccak-f on 1600 bits, as 25 lanes of 64 bits of which lane `x + 5 * y` stands
in column `x` and row `y`, and a permutation of twelve field elements made
from it. The latter puts the elements into the first lanes, zeros behind them,
and collects the canonical lanes of one permuted state after another until
there are twelve.

Keccak-f is a bijection, so the states come round to the first one, all of
whose lanes are canonical, and the collection ends after no more steps than
there are states.

## Main definitions

* `Keccak.permute`: Keccak-f[1600].
* `Keccak.collect`: The canonical lanes of successive states.
* `Keccak.permuteElements`: The permutation of twelve elements.
-/

namespace TraceCommit

namespace Keccak

/-- The state of 25 lanes. -/
abbrev State := Vector UInt64 25

/-- The number of rounds. -/
def roundCount : Nat := 24

/-- The constants added to the first lane, one for each round. -/
def roundConstants : List UInt64 :=
  [0x0000000000000001, 0x0000000000008082, 0x800000000000808a, 0x8000000080008000,
   0x000000000000808b, 0x0000000080000001, 0x8000000080008081, 0x8000000000008009,
   0x000000000000008a, 0x0000000000000088, 0x0000000080008009, 0x000000008000000a,
   0x000000008000808b, 0x800000000000008b, 0x8000000000008089, 0x8000000000008003,
   0x8000000000008002, 0x8000000000000080, 0x000000000000800a, 0x800000008000000a,
   0x8000000080008081, 0x8000000000008080, 0x0000000080000001, 0x8000000080008008]

/-- How far each lane is rotated. -/
def rotations : Vector UInt64 25 :=
  #v[0, 1, 62, 28, 27, 36, 44, 6, 55, 20, 3, 10, 43, 25, 39, 41, 45, 15, 21, 8, 18, 2, 61, 56, 14]

/-- The word rotated left. -/
@[inline] def rotateLeft (w places : UInt64) : UInt64 :=
  (w <<< places) ||| (w >>> (64 - places))

/-- The lane in column `x` and row `y`, both taken modulo five. -/
@[inline] def lane (s : State) (x y : Nat) : UInt64 :=
  s.get ⟨x % 5 + 5 * (y % 5), by omega⟩

/-- Adds to each lane the parities of two neighbouring columns. -/
def theta (s : State) : State :=
  let parity : Vector UInt64 5 := Vector.ofFn fun x =>
    lane s x 0 ^^^ lane s x 1 ^^^ lane s x 2 ^^^ lane s x 3 ^^^ lane s x 4
  let column (x : Nat) : UInt64 := parity.get (Fin.ofNat 5 x)
  let change : Vector UInt64 5 := Vector.ofFn fun x =>
    column (x + 4) ^^^ rotateLeft (column (x + 1)) 1
  Vector.ofFn fun i => s[i] ^^^ change.get (Fin.ofNat 5 i.val)

/-- Rotates every lane and moves it to its new place. -/
def rhoPi (s : State) : State :=
  let rotated : State := Vector.zipWith rotateLeft s rotations
  Vector.ofFn fun i => lane rotated (i.val % 5 + 3 * (i.val / 5)) (i.val % 5)

/-- Combines each lane with the two after it in its row. -/
def chi (s : State) : State :=
  Vector.ofFn fun i =>
    let x := i.val % 5
    let y := i.val / 5
    s[i] ^^^ (~~~(lane s (x + 1) y) &&& lane s (x + 2) y)

/-- One round with its constant. -/
def round (s : State) (constant : UInt64) : State :=
  let s := chi (rhoPi (theta s))
  s.set 0 (s[0] ^^^ constant)

/-- Keccak-f[1600]. -/
def permute (s : State) : State := roundConstants.foldl round s

/-- Appends the canonical lanes of successive permuted states until there are
    at least twelve. The first argument bounds the number of states. -/
def collect (f : State → State) : Nat → State → Array Element → Array Element
  | 0, _, found => found
  | states + 1, s, found =>
    if 12 ≤ found.size then found
    else
      let s := f s
      collect f states s (found ++ s.toArray.filterMap Element.ofWord?)

/-- The number of states. -/
def stateCount : Nat := 1 <<< (64 * 25)

/-- The permutation of twelve elements made from a permutation of lanes: the
    first twelve canonical lanes of the successive states. -/
def permuteElementsWith (f : State → State) (s : Vector Element 12) : Vector Element 12 :=
  let start : State := Vector.ofFn fun i => if h : i.val < 12 then s[i.val].val else 0
  let found := collect f stateCount start #[]
  Vector.ofFn fun i => found.getD i 0

/-- The permutation of twelve elements made from Keccak-f[1600]. -/
def permuteElements (s : Vector Element 12) : Vector Element 12 := permuteElementsWith permute s

end Keccak

end TraceCommit
