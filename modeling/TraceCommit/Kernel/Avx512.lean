import TraceCommit.Kernel.Lanes

/-!
# Eight-Lane Kernels

Field arithmetic on registers of eight lanes with unsigned comparisons into
mask bits. Corrections are masked additions and subtractions that leave the
other lanes as they are.

## Main definitions

* `Avx512.arithmetic`: The lane arithmetic.
* `Kernels.avx512`: The kernels.
-/

namespace TraceCommit

namespace Avx512

/-- An eight-lane register. -/
abbrev Register := Lanes 8

/-- The correction for a carry or a borrow in every lane. -/
def epsilon : Register := .splat lowMask

/-- The modulus in every lane. -/
def order : Register := .splat modulus

/-- Brings every lane below the modulus by one masked subtraction. -/
def canonicalize (x : Register) : Register :=
  x.maskSub (x.atLeastMask order) x order

/-- Lane sums modulo the field's modulus. -/
def add (a b : Register) : Register :=
  let sum := Lanes.add a b
  let carry := sum.lessMask a
  canonicalize (sum.maskAdd carry sum epsilon)

/-- Lane differences modulo the field's modulus. -/
def sub (a b : Register) : Register :=
  let difference := Lanes.sub a b
  let borrow := a.lessMask b
  difference.maskAdd borrow difference order

/-- Reduces a double word in every lane. -/
def reduce (hi lo : Register) : Register :=
  let top := hi.shiftRightHalf
  let middle := hi.and epsilon
  let wrapped := lo.sub top
  let borrow := lo.lessMask top
  let difference := wrapped.maskSub borrow wrapped epsilon
  let folded := middle.shiftLeftHalf.sub middle
  let sum := difference.add folded
  let carry := sum.lessMask folded
  canonicalize (sum.maskAdd carry sum epsilon)

/-- Lane products modulo the field's modulus. -/
def mul (a b : Register) : Register :=
  let (hi, lo) := Lanes.mulWide a b
  reduce hi lo

/-- The eight-lane arithmetic. -/
def arithmetic : LaneArithmetic 8 := ⟨add, sub, mul⟩

end Avx512

/-- The kernels that work eight lanes at a time. -/
def Kernels.avx512 : Kernels := Avx512.arithmetic.kernels .avx512

end TraceCommit
