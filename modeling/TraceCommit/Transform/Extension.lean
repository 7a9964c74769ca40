import TraceCommit.Transform.Inverse
import TraceCommit.Word.Checked

/-!
# Low-Degree Extension

A polynomial given by `n` coefficients is evaluated at `n * 2 ^ rate` points:
the coset of the larger subgroup that is shifted by the field's generator. The
coefficients are padded with zeros, and the padding is passed on as a zero
factor.

## Main definitions

* `lde`: The extension of one polynomial.
* `ldeBatch`: The extensions of several.
-/

namespace TraceCommit

/-- The values on the generator's coset of `2 ^ rateBits` times as many points
    as there are coefficients. Value `i` belongs to `generator * ω ^ i`. -/
def lde (e : Engine) (coefficients : Array Element) (rateBits : UInt64) :
    Except TransformError (Array Element) := do
  let log2Size ← domainLog2 coefficients.size
  let extendedLog2 ← Checked.add (UInt64.ofNat log2Size) rateBits
  if maxLog2Size < extendedLog2.toNat then
    throw (.domainTooLarge extendedLog2.toNat maxLog2Size)
  let extended := coefficients.size <<< rateBits.toNat
  (cosetFftInPlace e Element.generator (some rateBits.toNat)).apply
    (padZeros extended coefficients)

/-- The extensions of several polynomials, or the first refusal met. Several
    polynomials fork. -/
def ldeBatch (e : Engine) (polynomials : Array (Array Element)) (rateBits : UInt64) :
    Except TransformError (Array (Array Element)) :=
  e.schedule.collect (e.schedule.forking && decide (1 < polynomials.size)) polynomials.size
    fun i => lde (e.branch i) (polynomials.getD i #[]) rateBits

end TraceCommit
