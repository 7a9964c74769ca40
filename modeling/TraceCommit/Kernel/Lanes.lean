import TraceCommit.Kernel.Batch

/-!
# Vector Registers

A vector register as a fixed number of 64-bit lanes, with the instructions the
packed kernels use. Each instruction acts on every lane by itself. The
comparisons come in two families: one compares signed lanes and answers with a
lane of all ones or all zeros, the other compares unsigned lanes and answers
with one mask bit per lane, which masked additions and subtractions take.

Beside the instructions stand the batch kernels, written once for any lane
arithmetic: full registers go through the lanes, and the elements left over at
the end are handled one word at a time.

## Main definitions

* `Lanes`: A register of `n` lanes, with its instructions.
* `LaneArithmetic`: Field arithmetic on registers.
* `LaneArithmetic.zipWords`, `LaneArithmetic.butterflyWords`: Kernels on words.
* `LaneArithmetic.kernels`: The batch kernels they make.
-/

namespace TraceCommit

/-- A vector register of `n` lanes of 64 bits. -/
abbrev Lanes (n : Nat) := Vector UInt64 n

/-- One mask bit for each lane. -/
abbrev LaneMask (n : Nat) := Vector Bool n

namespace Lanes

variable {n : Nat}

/-- The same word in every lane. -/
def splat (w : UInt64) : Lanes n := Vector.replicate n w

/-- Lane sums, modulo `2 ^ 64`. -/
def add (a b : Lanes n) : Lanes n := Vector.zipWith (· + ·) a b

/-- Lane differences, modulo `2 ^ 64`. -/
def sub (a b : Lanes n) : Lanes n := Vector.zipWith (· - ·) a b

/-- Lane products of the low 32 bits, in full. -/
def mulLow (a b : Lanes n) : Lanes n :=
  Vector.zipWith (fun x y => (x &&& lowMask) * (y &&& lowMask)) a b

/-- Bitwise conjunction. -/
def and (a b : Lanes n) : Lanes n := Vector.zipWith (· &&& ·) a b

/-- Bitwise disjunction. -/
def or (a b : Lanes n) : Lanes n := Vector.zipWith (· ||| ·) a b

/-- Bitwise exclusive disjunction. -/
def xor (a b : Lanes n) : Lanes n := Vector.zipWith (· ^^^ ·) a b

/-- Each lane shifted left by 32 places. -/
def shiftLeftHalf (a : Lanes n) : Lanes n := a.map fun x : UInt64 => x <<< (32 : UInt64)

/-- Each lane shifted right by 32 places, with zeros from above. -/
def shiftRightHalf (a : Lanes n) : Lanes n := a.map fun x : UInt64 => x >>> (32 : UInt64)

/-- All ones where the first lane is greater as a signed number, else zero. -/
def greaterSigned (a b : Lanes n) : Lanes n :=
  Vector.zipWith (fun x y => if y.toInt64 < x.toInt64 then 0xffffffffffffffff else 0) a b

/-- The lanes where the first is smaller as an unsigned number. -/
def lessMask (a b : Lanes n) : LaneMask n := Vector.zipWith (fun x y => decide (x < y)) a b

/-- The lanes where the first is at least the second as an unsigned number. -/
def atLeastMask (a b : Lanes n) : LaneMask n :=
  Vector.zipWith (fun x y => decide (y ≤ x)) a b

/-- Takes the lanes of `b` where the mask is set and those of `a` elsewhere. -/
def blend (mask : LaneMask n) (a b : Lanes n) : Lanes n :=
  Vector.zipWith (fun chosen p => if chosen then p.2 else p.1) mask
    (Vector.zipWith Prod.mk a b)

/-- Lane sums where the mask is set, the lanes of `source` elsewhere. -/
def maskAdd (source : Lanes n) (mask : LaneMask n) (a b : Lanes n) : Lanes n :=
  blend mask source (add a b)

/-- Lane differences where the mask is set, the lanes of `source` elsewhere. -/
def maskSub (source : Lanes n) (mask : LaneMask n) (a b : Lanes n) : Lanes n :=
  blend mask source (sub a b)

/-- The register loaded from a sequence of words at an offset. -/
def load (words : Array UInt64) (offset : Nat) : Lanes n :=
  Vector.ofFn fun i => words.getD (offset + i) 0

/-- Full 128-bit products of two registers, as high and low words. The middle
    column collects three terms below `2 ^ 32` each. -/
def mulWide (a b : Lanes n) : Lanes n × Lanes n :=
  let mask := splat lowMask
  let aHi := a.shiftRightHalf
  let bHi := b.shiftRightHalf
  let ll := mulLow a b
  let lh := mulLow a bHi
  let hl := mulLow aHi b
  let hh := mulLow aHi bHi
  -- The upper half of this sum is the carry from the middle column.
  let mid := add (add ll.shiftRightHalf (and lh mask)) (and hl mask)
  let lo := or (and ll mask) mid.shiftLeftHalf
  let hi := add (add hh mid.shiftRightHalf) (add lh.shiftRightHalf hl.shiftRightHalf)
  (hi, lo)

end Lanes

/-- Field arithmetic on registers whose lanes hold canonical words. -/
structure LaneArithmetic (n : Nat) where
  /-- Lane sums modulo the field's modulus. -/
  add : Lanes n → Lanes n → Lanes n
  /-- Lane differences modulo the field's modulus. -/
  sub : Lanes n → Lanes n → Lanes n
  /-- Lane products modulo the field's modulus. -/
  mul : Lanes n → Lanes n → Lanes n

namespace LaneArithmetic

variable {n : Nat}

/-- Combines two sequences of words, a register at a time as far as full
    registers go and one word at a time from there. -/
def zipWords (lanes : Lanes n → Lanes n → Lanes n) (word : UInt64 → UInt64 → UInt64)
    (lhs rhs : Array UInt64) : Array UInt64 :=
  let full := lhs.size / n
  let packed := full.fold (fun i _ out =>
    out ++ (lanes (.load lhs (i * n)) (.load rhs (i * n))).toArray) #[]
  packed ++ Array.zipWith word (lhs.extract (full * n)) (rhs.extract (full * n))

/-- Sums of corresponding words. -/
def addWords (k : LaneArithmetic n) : Array UInt64 → Array UInt64 → Array UInt64 :=
  zipWords k.add Word.add

/-- Differences of corresponding words. -/
def subWords (k : LaneArithmetic n) : Array UInt64 → Array UInt64 → Array UInt64 :=
  zipWords k.sub Word.sub

/-- Products of corresponding words. -/
def mulWords (k : LaneArithmetic n) : Array UInt64 → Array UInt64 → Array UInt64 :=
  zipWords k.mul Word.mul

/-- Every word times one scalar, held in all lanes of one register. -/
def scaleWords (k : LaneArithmetic n) (values : Array UInt64) (scalar : UInt64) :
    Array UInt64 :=
  let factor : Lanes n := .splat scalar
  let full := values.size / n
  let packed := full.fold (fun i _ out =>
    out ++ (k.mul (.load values (i * n)) factor).toArray) #[]
  packed ++ (values.extract (full * n)).map (Word.mul · scalar)

/-- One butterfly for each pair of words: the new low and high words. -/
def butterflyWords (k : LaneArithmetic n) (lo hi twiddles : Array UInt64) :
    Array UInt64 × Array UInt64 :=
  let full := lo.size / n
  let packed := full.fold (fun i _ (los, his) =>
    let x : Lanes n := .load lo (i * n)
    let turned := k.mul (.load hi (i * n)) (.load twiddles (i * n))
    (los ++ (k.add x turned).toArray, his ++ (k.sub x turned).toArray)) (#[], #[])
  let loRest := lo.extract (full * n)
  let turnedRest := Array.zipWith Word.mul (hi.extract (full * n)) (twiddles.extract (full * n))
  (packed.1 ++ Array.zipWith Word.add loRest turnedRest,
   packed.2 ++ Array.zipWith Word.sub loRest turnedRest)

/-- The words of a sequence of elements. -/
def wordsOf (xs : Array Element) : Array UInt64 := xs.map Element.val

/-- The elements of a sequence of words. -/
def elementsOf (words : Array UInt64) : Array Element := words.map Element.ofWord

/-- The batch kernels of a lane arithmetic. They check lengths exactly as the
    kernels that work an element at a time do. -/
def kernels (k : LaneArithmetic n) (capability : Capability) : Kernels where
  capability := capability
  add lhs rhs outLength := do
    requireSameLengths .add lhs.size rhs.size outLength
    return elementsOf (k.addWords (wordsOf lhs) (wordsOf rhs))
  sub lhs rhs outLength := do
    requireSameLengths .sub lhs.size rhs.size outLength
    return elementsOf (k.subWords (wordsOf lhs) (wordsOf rhs))
  mul lhs rhs outLength := do
    requireSameLengths .mul lhs.size rhs.size outLength
    return elementsOf (k.mulWords (wordsOf lhs) (wordsOf rhs))
  mulAssign values factors := do
    requireSameLength .mulAssign values.size factors.size
    return elementsOf (k.mulWords (wordsOf values) (wordsOf factors))
  scale values scalar := elementsOf (k.scaleWords (wordsOf values) scalar.val)
  butterflies lo hi twiddles := do
    requireSameLengths .butterflies lo.size hi.size twiddles.size
    let (los, his) := k.butterflyWords (wordsOf lo) (wordsOf hi) (wordsOf twiddles)
    return (elementsOf los, elementsOf his)

end LaneArithmetic

end TraceCommit
