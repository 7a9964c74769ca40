import TraceCommit.Transform.Forward

/-!
# The Inverse Transform

Interpolation: from the values over a subgroup, or a coset, back to the
coefficients. The forward transform of the values holds, up to the factor `n`,
the coefficients with all but the first in reverse order, so it is run again,
the entries behind the first are reversed, and everything is divided by `n`.

## Main definitions

* `ifftInPlace`: Interpolation in a buffer.
* `ifft`, `cosetIfft`: The same on copies.
* `interpolateColumns`: All columns of a trace.
-/

namespace TraceCommit

/-- Reverses everything behind the first entry. -/
def reverseTail (values : Array Element) : Array Element :=
  values.extract 0 1 ++ (values.extract 1).reverse

/-- Interpolates the buffer's values over the subgroup. -/
def ifftInPlace (e : Engine) : OnBuffer Unit := do
  let _ ← domainLog2 (← get).size
  fftInPlace e none none
  modify reverseTail
  OnBuffer.replace fun values => do
    let sizeInverse ← (Element.ofWord (UInt64.ofNat values.size)).inverse
    return e.kernels.scale values sizeInverse

/-- The coefficients of the polynomial with these values over the subgroup. -/
def ifft (e : Engine) (values : Array Element) : Except TransformError (Array Element) :=
  (ifftInPlace e).apply values

/-- The coefficients of the polynomial with these values over `shift * H`. -/
def cosetIfft (e : Engine) (values : Array Element) (shift : Element) :
    Except TransformError (Array Element) := do
  let coefficients ← ifft e values
  let shiftInverse ← shift.inverse
  scaleByPowers e.kernels shiftInverse coefficients

/-- Interpolates every column of a trace. Several columns fork. -/
def interpolateColumns (e : Engine) (columns : Array (Array Element)) :
    Except TransformError (Array (Array Element)) :=
  e.schedule.collect (e.schedule.forking && decide (1 < columns.size)) columns.size fun i =>
    ifft (e.branch i) (columns.getD i #[])

end TraceCommit
