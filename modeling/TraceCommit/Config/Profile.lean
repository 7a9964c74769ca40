import TraceCommit.Config.Range
import TraceCommit.Hash.Hasher
import TraceCommit.Kernel.Capability
import TraceCommit.Merkle.Options
import TraceCommit.Word.Checked

/-!
# Configurations and Profiles

A configuration holds every input of a run: the size of the trace, the ranges
that a sweep goes through, and how the extended trace is committed to. Three
profiles name complete configurations to start from.

## Main definitions

* `RunConfig`: Every input of a run.
* `Profile`: The named configurations.
-/

namespace TraceCommit

/-- Every input of a run. -/
structure RunConfig where
  /-- The logarithm of the number of rows. -/
  rowsLog2 : UInt64
  /-- The number of columns. -/
  columns : UInt64
  /-- The logarithms of the polynomial sizes of a sweep. -/
  degreeLog2 : InclusiveRange
  /-- The logarithms of the extended sizes of a sweep. -/
  extendedLog2 : InclusiveRange
  /-- The blow-up rates, as logarithms. -/
  rateBits : InclusiveRange
  /-- The width of batch arithmetic. -/
  capability : Capability
  /-- The hash of the commitment. -/
  hash : HashFamily
  /-- The height of the cap of the commitment. -/
  capHeight : UInt64
  /-- What is done about odd numbers of leaves. -/
  padding : PaddingPolicy
deriving DecidableEq, Repr

/-- The number of rows, a shifted word. -/
def RunConfig.rows (c : RunConfig) : Except Violation UInt64 := Checked.shiftLeft 1 c.rowsLog2

/-- The named configurations. -/
inductive Profile
  /-- Sizes for measurements. -/
  | bench
  /-- Small sizes for a quick check. -/
  | smoke
  /-- The smallest trace worth committing to. -/
  | e2e
deriving DecidableEq, Repr

namespace Profile

/-- All profiles. -/
def all : List Profile := [.bench, .smoke, .e2e]

/-- The name of a profile. -/
def name : Profile → String
  | .bench => "bench"
  | .smoke => "smoke"
  | .e2e => "e2e"

/-- The configuration of a profile. -/
def config : Profile → RunConfig
  | .bench => ⟨21, 600, ⟨19, 23⟩, ⟨20, 23⟩, ⟨1, 3⟩, .scalar, .poseidon, 0, .reject⟩
  | .smoke => ⟨10, 16, ⟨8, 10⟩, ⟨9, 11⟩, ⟨1, 2⟩, .scalar, .poseidon, 0, .reject⟩
  | .e2e => ⟨3, 4, .single 3, .single 4, .single 1, .scalar, .poseidon, 0, .reject⟩

end Profile

end TraceCommit
