import TraceCommit.Text.Name

/-!
# Capabilities

A capability names the width at which batch arithmetic is carried out: one
word at a time, or four or eight lanes of a vector register. It is chosen by
name, and a process settles on one for good (see `Kernel.Registry`).

## Main definitions

* `Capability`: The three widths.
* `CapabilityError`: Why a capability cannot be used.
* `Capability.ofText`: Reads a capability's name.
-/

namespace TraceCommit

/-- The width at which batch arithmetic is carried out. -/
inductive Capability
  | scalar
  | avx2
  | avx512
deriving DecidableEq, Repr

namespace Capability

/-- All capabilities, narrowest first. -/
def all : List Capability := [.scalar, .avx2, .avx512]

/-- The name of a capability. -/
def name : Capability → String
  | .scalar => "scalar"
  | .avx2 => "avx2"
  | .avx512 => "avx512"

/-- The number of 64-bit lanes of one step. -/
def lanes : Capability → Nat
  | .scalar => 1
  | .avx2 => 4
  | .avx512 => 8

end Capability

/-- Why a capability cannot be used. -/
inductive CapabilityError
  /-- The processor does not provide it. -/
  | unsupported (capability : Capability)
  /-- No capability has this name. -/
  | unknown (name : String)
  /-- Another one has been settled on already. -/
  | alreadyInstalled (installed requested : Capability)
deriving DecidableEq, Repr

/-- The wording of a capability error. -/
def CapabilityError.message : CapabilityError → String
  | .unsupported capability =>
    s!"unsupported capability `{capability.name}`: the CPU does not provide it"
  | .unknown name => s!"unknown capability `{name}`, expected one of scalar, avx2, avx512"
  | .alreadyInstalled installed requested =>
    s!"backend `{installed.name}` is already installed, cannot switch to `{requested.name}`"

/-- Reads a capability's name. The widest goes by two names. -/
def Capability.ofText (text : String) : Except CapabilityError Capability :=
  match Text.foldName text with
  | "scalar" => .ok .scalar
  | "avx2" => .ok .avx2
  | "avx512" => .ok .avx512
  | "avx512f" => .ok .avx512
  | _ => .error (.unknown text)

end TraceCommit
