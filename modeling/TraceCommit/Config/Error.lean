import TraceCommit.Config.File
import TraceCommit.Hash.Hasher
import TraceCommit.Kernel.Capability
import TraceCommit.Text.Number
import TraceCommit.Violation

/-!
# Configuration Errors

## Main definitions

* `Variable`: The environment variables that hold settings.
* `RangeSetting`, `DomainBound`: What a validation looks at.
* `ConfigError`: Why there is no configuration to run with.
* `ConfigError.message?`: Its wording.
-/

namespace TraceCommit

/-- The environment variables that hold settings. -/
inductive Variable
  | simd
  | hash
  | rowsLog2
  | columns
  | rateBits
  | capHeight
deriving DecidableEq, Repr

/-- All variables, in the order in which they are read. -/
def Variable.all : List Variable := [.simd, .hash, .rowsLog2, .columns, .rateBits, .capHeight]

/-- The name of a variable. -/
def Variable.key : Variable → String
  | .simd => "STARK_PERF_SIMD"
  | .hash => "STARK_PERF_HASH"
  | .rowsLog2 => "STARK_PERF_ROWS_LOG2"
  | .columns => "STARK_PERF_COLUMNS"
  | .rateBits => "STARK_PERF_RATE_BITS"
  | .capHeight => "STARK_PERF_CAP_HEIGHT"

/-- Why the value of a variable is refused. -/
inductive ValueRefusal
  | capability (error : CapabilityError)
  | hash (error : UnknownHash)
  | number (refusal : Text.NumberRefusal)
deriving DecidableEq, Repr

/-- The wording of a refused value. -/
def ValueRefusal.message : ValueRefusal → String
  | .capability error => error.message
  | .hash error => error.message
  | .number refusal => refusal.message

/-- The settings that are ranges. -/
inductive RangeSetting
  | degreeLog2
  | extendedLog2
  | rateBits
deriving DecidableEq, Repr

/-- The name of a range. -/
def RangeSetting.name : RangeSetting → String
  | .degreeLog2 => "degree_log2"
  | .extendedLog2 => "lde_degree_log2"
  | .rateBits => "rate_bits"

/-- The domain sizes that the field limits. -/
inductive DomainBound
  /-- The extended trace at the highest rate. -/
  | trace
  /-- The largest polynomial of a sweep at the highest rate. -/
  | degree
  /-- The largest extended size of a sweep. -/
  | extended
deriving DecidableEq, Repr

/-- The name of a domain size. -/
def DomainBound.name : DomainBound → String
  | .trace => "rows_log2 + rate_bits"
  | .degree => "degree_log2 + rate_bits"
  | .extended => "lde_degree_log2"

/-- Why there is no configuration to run with. -/
inductive ConfigError
  /-- There are no columns. -/
  | zeroColumns
  /-- The lowest rate extends nothing. -/
  | zeroRateBits
  /-- A range contains nothing. -/
  | emptyRange (setting : RangeSetting) (min max : UInt64)
  /-- The field has no domain of that size. -/
  | domainTooLarge (bound : DomainBound) (log2Size : UInt64) (max : Nat)
  /-- The cap would lie below the leaves. -/
  | capHeightTooLarge (capHeight height : UInt64)
  /-- A variable has a value that cannot be used. -/
  | invalidVariable (key : Variable) (value : String) (refusal : ValueRefusal)
  /-- A file cannot be read as text. -/
  | unreadableFile (path : String) (failure : FileFailure)
  /-- A document does not hold overrides. -/
  | malformedDocument
  /-- A calling contract was broken on the way. -/
  | violation (broken : Violation)
deriving DecidableEq, Repr

/-- The wording of a configuration error. What is wrong with a document is not
    put into words. -/
def ConfigError.message? : ConfigError → Option String
  | .zeroColumns => some "column count must be positive"
  | .zeroRateBits => some "rate_bits must be at least 1"
  | .emptyRange setting min max => some s!"{setting.name} range is empty: {min} > {max}"
  | .domainTooLarge bound log2Size max =>
    some s!"{bound.name} reaches 2^{log2Size}, beyond the field's maximum domain 2^{max}"
  | .capHeightTooLarge capHeight height =>
    some s!"cap height {capHeight} exceeds the extended trace height {height}"
  | .invalidVariable key value refusal =>
    some ("invalid value `" ++ value ++ s!"` for {key.key}: {refusal.message}")
  | .unreadableFile path failure => some s!"cannot read config file {path}: {failure.message}"
  | .malformedDocument => none
  | .violation broken => broken.message?

instance : MonadLift (Except Violation) (Except ConfigError) :=
  ⟨Except.mapError .violation⟩

end TraceCommit
