import TraceCommit.Kernel.Avx2
import TraceCommit.Kernel.Avx512

/-!
# The Settled Capability

A process settles on one capability for good: the first one installed, or the
scalar one if arithmetic was asked for before any was. Installing it again
changes nothing, and installing another one is refused. A capability that the
processor does not provide is refused first, whatever has been settled on.

## Main definitions

* `Kernels.of`: The kernels of a capability.
* `Registry`: What the processor provides, and what has been settled on.
* `Registry.install`, `Registry.active`: The two ways to settle.
-/

namespace TraceCommit

/-- The kernels of a capability. -/
def Kernels.of : Capability → Kernels
  | .scalar => .scalar
  | .avx2 => .avx2
  | .avx512 => .avx512

/-- The capabilities a processor provides, and the one settled on, if any. -/
structure Registry where
  /-- Whether the processor provides a capability. -/
  provides : Capability → Bool
  /-- Scalar arithmetic is always there. -/
  provides_scalar : provides .scalar = true
  /-- The capability settled on. -/
  settled : Option Capability

namespace Registry

/-- A process that has settled on nothing, on a processor with everything. -/
def fresh : Registry := ⟨fun _ => true, rfl, none⟩

/-- The capability the process uses, settling on the scalar one if none was. -/
def active (r : Registry) : Capability × Registry :=
  match r.settled with
  | some capability => (capability, r)
  | none => (.scalar, { r with settled := some .scalar })

/-- Settles on a capability, if the processor provides it and no other has
    been settled on before. -/
def install (r : Registry) (capability : Capability) :
    Except CapabilityError Capability × Registry :=
  if r.provides capability then
    match r.settled with
    | none => (.ok capability, { r with settled := some capability })
    | some installed =>
      if installed = capability then (.ok capability, r)
      else (.error (.alreadyInstalled installed capability), r)
  else (.error (.unsupported capability), r)

/-- The capabilities the processor provides, narrowest first. -/
def available (r : Registry) : List Capability := Capability.all.filter r.provides

end Registry

end TraceCommit
