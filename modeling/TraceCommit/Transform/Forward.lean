import TraceCommit.Transform.BitReversal
import TraceCommit.Transform.Butterfly
import TraceCommit.Transform.Roots

/-!
# The Forward Transform

Evaluates a polynomial, given by its coefficients, over the subgroup whose
order is their number, or over a coset of it. Entry `i` of the result belongs
to the point `ω ^ i`, where `ω` is the primitive root of that order.

The input is permuted by bit reversal, and then one butterfly layer after
another merges transforms of length `m / 2` into transforms of length `m`. If
only the first `n / 2 ^ r` inputs can be other than zero, the first `r` layers
do nothing but copy each of those inputs over its block of `2 ^ r`, and a zero
factor `r` makes the transform do just that.

Transforms work on a buffer in place. `OnBuffer` shows the buffer also after a
failure, so that what a refused transform leaves behind can be stated.

## Main definitions

* `OnBuffer`: Actions on a buffer that may be refused.
* `fftInPlace`, `cosetFftInPlace`: The transforms.
* `fft`, `fftPadded`, `fftWithOptions`, `cosetFft`: The same on copies.
-/

namespace TraceCommit

/-- An action on a buffer of elements. A refusal comes with the buffer it
    leaves behind. -/
abbrev OnBuffer := EStateM TransformError (Array Element)

instance : MonadLift (Except TransformError) OnBuffer where
  monadLift
    | .ok a => pure a
    | .error e => throw e

/-- The buffer that an action makes of the given one. -/
def OnBuffer.apply (action : OnBuffer Unit) (values : Array Element) :
    Except TransformError (Array Element) :=
  match action.run values with
  | .ok _ result => .ok result
  | .error e _ => .error e

/-- Replaces the buffer by what a function makes of it, or leaves it if the
    function refuses. -/
def OnBuffer.replace (f : Array Element → Except TransformError (Array Element)) :
    OnBuffer Unit := fun values =>
  match f values with
  | .ok result => .ok () result
  | .error e => .error e values

/-- Copies the first element of each block of `2 ^ r` over the whole block. -/
def broadcastHeads (r : Nat) (values : Array Element) : Array Element :=
  values.mapIdx fun i x => values.getD (i - i % (1 <<< r)) x

/-- The butterfly layers from `first` to `last`. -/
def butterflyLayers (e : Engine) (table : RootTable) (first last : Nat)
    (values : Array Element) : Except TransformError (Array Element) :=
  (List.range' first (last + 1 - first)).foldlM (fun values k => do
    let twiddles ← table.layer k
    butterflyLayer (e.branch k) twiddles (1 <<< k) values) values

/-- Multiplies entry `i` by `shift ^ i`. -/
def scaleByPowers (kernels : Kernels) (shift : Element) (values : Array Element) :
    Except Violation (Array Element) :=
  if shift = 1 then .ok values
  else kernels.mulAssign values (shift.powers values.size)

/-- Multiplies entry `i` by `shift ^ i` among the first `count` entries. -/
def scaleHead (kernels : Kernels) (shift : Element) (count : Nat) (values : Array Element) :
    Except Violation (Array Element) := do
  let (head, rest) ← splitAt values count
  return (← scaleByPowers kernels shift head) ++ rest

/-- Refuses a zero factor that exceeds the number of layers. -/
def checkZeroFactor (zeroFactor log2Size : Nat) : Except TransformError Unit :=
  if log2Size < zeroFactor then .error (.invalidZeroFactor zeroFactor log2Size) else .ok ()

/-- The table to transform with: the one supplied, if it is large enough, else
    the table of the domain itself. -/
def chooseTable (supplied : Option RootTable) (log2Size : Nat) :
    Except TransformError RootTable :=
  match supplied with
  | some table =>
    if table.covers log2Size then .ok table
    else .error (.rootTableTooSmall table.log2Size log2Size)
  | none => RootTable.build log2Size

/-- Transforms the buffer. A zero factor `r` promises that only the first
    `n / 2 ^ r` entries can be other than zero. -/
def fftInPlace (e : Engine) (zeroFactor : Option Nat) (table : Option RootTable) :
    OnBuffer Unit := do
  let log2Size ← domainLog2 (← get).size
  let r := zeroFactor.getD 0
  checkZeroFactor r log2Size
  let table ← chooseTable table log2Size
  OnBuffer.replace fun values => liftM (reverseIndexBits values)
  -- The entries that may be other than zero now stand at the heads of blocks.
  if 0 < r then modify (broadcastHeads r)
  OnBuffer.replace (butterflyLayers e table (r + 1) log2Size)

/-- Transforms the buffer over the coset `shift * H`. Only the entries that a
    zero factor leaves room for are scaled. -/
def cosetFftInPlace (e : Engine) (shift : Element) (zeroFactor : Option Nat) :
    OnBuffer Unit := do
  let log2Size ← domainLog2 (← get).size
  let r := zeroFactor.getD 0
  checkZeroFactor r log2Size
  OnBuffer.replace fun values => liftM (scaleHead e.kernels shift (values.size >>> r) values)
  fftInPlace e zeroFactor none

/-- The values over the subgroup, with hints. -/
def fftWithOptions (e : Engine) (coefficients : Array Element) (zeroFactor : Option Nat)
    (table : Option RootTable) : Except TransformError (Array Element) :=
  (fftInPlace e zeroFactor table).apply coefficients

/-- The values over the subgroup of as many points as there are coefficients. -/
def fft (e : Engine) (coefficients : Array Element) : Except TransformError (Array Element) :=
  fftWithOptions e coefficients none none

/-- The sequence with zeros appended up to a length. -/
def padZeros (length : Nat) (values : Array Element) : Array Element :=
  values ++ Array.replicate (length - values.size) 0

/-- The values over the subgroup of `domainSize` points, which are at least as
    many as the coefficients. -/
def fftPadded (e : Engine) (coefficients : Array Element) (domainSize : Nat) :
    Except TransformError (Array Element) := do
  let _ ← domainLog2 domainSize
  if domainSize < coefficients.size then
    throw (.polynomialTooLarge coefficients.size domainSize)
  (fftInPlace e none none).apply (padZeros domainSize coefficients)

/-- The values over the coset `shift * H`. -/
def cosetFft (e : Engine) (coefficients : Array Element) (shift : Element) :
    Except TransformError (Array Element) :=
  (cosetFftInPlace e shift none).apply coefficients

end TraceCommit
