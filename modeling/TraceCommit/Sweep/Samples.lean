import TraceCommit.Config.Document
import TraceCommit.Field.Sampling
import TraceCommit.Timing
import TraceCommit.Transform.Extension

/-!
# Sweeping Over Extensions

A sweep times the low-degree extension of random polynomials: for each size of
a configuration, in ascending order, and each rate, in ascending order, as long
as the extended size is one that the configuration asks for. The coefficients come
from a source of words, and a sweep has an end only if all of them are drawn.

## Main definitions

* `SweepSample`, `SweepReport`: What a sweep reports.
* `sweepRate`, `sweepDegree`: One rate, and one polynomial at all rates.
* `sweep`: A sweep.
-/

namespace TraceCommit

open Json

/-- One extension that was timed. -/
structure SweepSample where
  /-- The logarithm of the number of coefficients. -/
  degreeLog2 : UInt64
  /-- The rate, as a logarithm. -/
  rateBits : UInt64
  /-- The logarithm of the number of values. -/
  extendedLog2 : UInt64
  /-- The time in milliseconds. -/
  millis : Float

/-- What a sweep reports. -/
structure SweepReport where
  /-- The capability in use. -/
  capability : Capability
  /-- The extensions, in the order in which they were timed. -/
  samples : List SweepSample

/-- A sample as a record. -/
def SweepSample.write (s : SweepSample) : Value :=
  .record [("degree_log2", .word s.degreeLog2), ("rate_bits", .word s.rateBits),
    ("extended_log2", .word s.extendedLog2), ("millis", .float s.millis)]

/-- A report as a record. -/
def SweepReport.write (r : SweepReport) : Value :=
  .record [("capability", Capability.codec.write r.capability),
    ("samples", .array (r.samples.map SweepSample.write))]

variable {m : Type → Type} [Monad m] {σ : Type}

/-- Insists on one value for each of the points of an extension. -/
def requireValues (values : Array Element) (extendedLog2 : UInt64) : Except Violation Unit := do
  let points ← Checked.shiftLeft 1 extendedLog2
  if values.size ≠ points.toNat then throw (.valueCount values.size points.toNat)

/-- Extends one polynomial at one rate, unless the extended size is not asked
    for. -/
def sweepRate (e : Engine) (w : Stopwatch m) (sizes : InclusiveRange)
    (coefficients : Array Element) (degreeLog2 rateBits : UInt64) :
    ExceptT Failure m (Option SweepSample) := do
  let extendedLog2 ← attempt (m := m) .violation (Checked.add degreeLog2 rateBits)
  if sizes.contains extendedLog2 then
    let start ← w.now
    let extended ← ExceptT.lift (w.carryOut fun _ => lde e coefficients rateBits)
    let stop ← w.now
    let values ← attempt (m := m) .transform extended
    attempt (m := m) .violation (requireValues values extendedLog2)
    return some ⟨degreeLog2, rateBits, extendedLog2, (Duration.ofNanos (stop - start)).millis⟩
  else return none

/-- Draws a polynomial of one size and extends it at all rates. -/
def sweepDegree (e : Engine) (w : Stopwatch m) (source : WordSource σ) (config : RunConfig)
    (state : List SweepSample × σ) (degreeLog2 : UInt64) :
    OptionT (ExceptT Failure m) (List SweepSample × σ) := do
  let (samples, s) := state
  let count ← OptionT.lift (attempt .violation (Checked.shiftLeft 1 degreeLog2))
  let drawn ← OptionT.lift (attempt .violation (source.elements count.toNat s))
  let (coefficients, s) ← OptionT.mk (pure drawn)
  let added ← OptionT.lift (config.rateBits.numbers.filterMapM
    (sweepRate e w config.extendedLog2 coefficients degreeLog2))
  return (samples ++ added, s)

/-- Times the extensions of random polynomials. -/
def sweep (e : Engine) (w : Stopwatch m) (source : SeededSource σ) (capability : Capability)
    (config : RunConfig) (seed : UInt64) : OptionT (ExceptT Failure m) SweepReport := do
  let (samples, _) ← config.degreeLog2.numbers.foldlM
    (sweepDegree e w source.toWordSource config) ([], source.ofSeed seed)
  return ⟨capability, samples⟩

end TraceCommit
