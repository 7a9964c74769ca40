import TraceCommit.Kernel.Lanes

/-!
# Four-Lane Kernels

Field arithmetic on registers of four lanes whose only comparison is signed
and answers with all ones or all zeros. Flipping the sign bit of both sides
turns it into the unsigned comparison that carries and borrows need, and the
all-ones answer, cut to its low 32 bits, is the correction itself.

## Main definitions

* `Avx2.arithmetic`: The lane arithmetic.
* `Kernels.avx2`: The kernels.
-/

namespace TraceCommit

namespace Avx2

/-- A four-lane register. -/
abbrev Register := Lanes 4

/-- The correction for a carry or a borrow in every lane. -/
def epsilon : Register := .splat lowMask

/-- Flips the sign bit, which carries the unsigned order into the signed one. -/
def flipSign (x : Register) : Register := x.xor (.splat 0x8000000000000000)

/-- All ones in the lanes where `x` is smaller as an unsigned number. -/
def lessThan (x y : Register) : Register := (flipSign y).greaterSigned (flipSign x)

/-- Brings every lane below the modulus. Adding `2 ^ 32 - 1` subtracts the
    modulus from a lane that has reached it. -/
def canonicalize (x : Register) : Register :=
  let atLeastModulus :=
    (flipSign x).greaterSigned (.splat (0xffffffff00000000 ^^^ 0x8000000000000000))
  x.add (atLeastModulus.and epsilon)

/-- Lane sums modulo the field's modulus. -/
def add (a b : Register) : Register :=
  let sum := Lanes.add a b
  let carry := lessThan sum a
  canonicalize (sum.add (carry.and epsilon))

/-- Lane differences modulo the field's modulus. -/
def sub (a b : Register) : Register :=
  let difference := Lanes.sub a b
  let borrow := lessThan a b
  difference.sub (borrow.and epsilon)

/-- Reduces a double word in every lane. -/
def reduce (hi lo : Register) : Register :=
  let top := hi.shiftRightHalf
  let middle := hi.and epsilon
  let borrow := lessThan lo top
  let difference := (lo.sub top).sub (borrow.and epsilon)
  let folded := middle.shiftLeftHalf.sub middle
  let sum := difference.add folded
  let carry := lessThan sum folded
  canonicalize (sum.add (carry.and epsilon))

/-- Lane products modulo the field's modulus. -/
def mul (a b : Register) : Register :=
  let (hi, lo) := Lanes.mulWide a b
  reduce hi lo

/-- The four-lane arithmetic. -/
def arithmetic : LaneArithmetic 4 := ⟨add, sub, mul⟩

end Avx2

/-- The kernels that work four lanes at a time. -/
def Kernels.avx2 : Kernels := Avx2.arithmetic.kernels .avx2

end TraceCommit
