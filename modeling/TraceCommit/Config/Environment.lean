import TraceCommit.Config.Error
import TraceCommit.Config.Overrides

/-!
# Settings in the Environment

Six environment variables hold settings. Names of capabilities and hashes are
read as users type them; numbers may have blanks around them. A single rate
becomes the range of that rate. Of several values that cannot be used, the one
of the first variable is reported.

## Main definitions

* `Variable.read?`: The setting that a variable holds.
* `Overrides.ofEnvironment`: The layer that the environment makes.
-/

namespace TraceCommit

/-- The setting that a variable holds, if it is set. -/
def Variable.read? {α : Type} (key : Variable) (parse : String → Except ValueRefusal α)
    (lookup : String → Option String) : Except ConfigError (Option α) :=
  match lookup key.key with
  | none => .ok none
  | some value =>
    match parse value with
    | .ok setting => .ok (some setting)
    | .error refusal => .error (.invalidVariable key value refusal)

/-- The number that a value spells, blanks around it aside. -/
def numberOfValue (value : String) : Except ValueRefusal UInt64 :=
  (Text.wordOf (Text.trimBlanks value)).mapError .number

/-- The layer that the environment makes. -/
def Overrides.ofEnvironment (lookup : String → Option String) : Except ConfigError Overrides := do
  let capability ←
    Variable.simd.read? (fun value => (Capability.ofText value).mapError .capability) lookup
  let hash ← Variable.hash.read? (fun value => (HashFamily.ofText value).mapError .hash) lookup
  let rowsLog2 ← Variable.rowsLog2.read? numberOfValue lookup
  let columns ← Variable.columns.read? numberOfValue lookup
  let rate ← Variable.rateBits.read? numberOfValue lookup
  let capHeight ← Variable.capHeight.read? numberOfValue lookup
  return { Overrides.empty with
    rowsLog2, columns, rateBits := rate.map .single, capability, hash, capHeight }

end TraceCommit
