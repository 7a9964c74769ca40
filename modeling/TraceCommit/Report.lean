import TraceCommit.Commitment
import TraceCommit.Config.Document
import TraceCommit.Config.Validation
import TraceCommit.Fibonacci
import TraceCommit.Hash.Keccak.Sponge
import TraceCommit.Hash.Poseidon.Sponge

/-!
# Reports

A run makes the Fibonacci trace of a configuration, commits to it at the
lowest rate, and reports the sizes, the times and the commitment. The
configuration is validated before anything else.

## Main definitions

* `RunReport`: What a run reports.
* `prove`: A run.
* `RunReport.codec`: How a report is stored.
-/

namespace TraceCommit

open Json

/-- What a run reports. -/
structure RunReport where
  /-- The hash of the commitment. -/
  hash : HashFamily
  /-- The capability in use. -/
  capability : Capability
  /-- The number of rows. -/
  rows : UInt64
  /-- The number of columns. -/
  columns : UInt64
  /-- The blow-up rate, as a logarithm. -/
  rateBits : UInt64
  /-- The number of rows of the extended trace. -/
  extendedRows : UInt64
  /-- The height of the cap. -/
  capHeight : UInt64
  /-- How long the phases took, in order. -/
  phases : List PhaseTiming
  /-- How long everything took, in milliseconds. -/
  totalMillis : Float
  /-- The root of the tree in hexadecimal digits. -/
  root : String
  /-- The nodes of the cap in hexadecimal digits. -/
  cap : List String

namespace RunReport

/-- The timing of the phase with a name, if there is one. -/
def phase? (r : RunReport) (name : String) : Option PhaseTiming :=
  r.phases.find? (·.phase == name)

/-- The names of the fields, in the order in which they are written. -/
def fieldNames : List String :=
  ["hash", "capability", "rows", "columns", "rate_bits", "extended_rows", "cap_height", "phases",
    "total_millis", "root", "cap"]

/-- A report as a record. -/
def codec : Codec RunReport where
  write r := .record (fieldNames.zip [HashFamily.codec.write r.hash,
    Capability.codec.write r.capability, .word r.rows, .word r.columns, .word r.rateBits,
    .word r.extendedRows, .word r.capHeight, (Codec.list PhaseTiming.codec).write r.phases,
    .float r.totalMillis, .text r.root, (Codec.list Codec.text).write r.cap])
  read? v := do
    match ← v.record? fieldNames false with
    | [hash, capability, rows, columns, rateBits, extendedRows, capHeight, phases, totalMillis,
        root, cap] =>
      return {
        hash := ← required HashFamily.codec.read? hash
        capability := ← required Capability.codec.read? capability
        rows := ← required Value.word? rows
        columns := ← required Value.word? columns
        rateBits := ← required Value.word? rateBits
        extendedRows := ← required Value.word? extendedRows
        capHeight := ← required Value.word? capHeight
        phases := ← required (Codec.list PhaseTiming.codec).read? phases
        totalMillis := ← required Value.float? totalMillis
        root := ← required Value.text? root
        cap := ← required (Codec.list Codec.text).read? cap }
    | _ => none

end RunReport

variable {m : Type → Type} [Monad m] {δ : Type}

/-- Makes the trace of a configuration and commits to it at the lowest rate. -/
def traceAndCommit (h : Hasher δ) (e : Engine) (w : Stopwatch m) (config : RunConfig) :
    Timed m (MerkleTree δ) := do
  let trace ← w.phaseOrFail .trace .violation fun _ => do
    let rows ← config.rows
    fibonacciTrace (e.branch 0).schedule rows.toNat config.columns.toNat
  commitTrace h (e.branch 1) w trace config.rateBits.min ⟨config.capHeight, config.padding⟩

/-- A run with a certain hasher. -/
def proveWith (h : Hasher δ) (e : Engine) (w : Stopwatch m) (capability : Capability)
    (config : RunConfig) : ExceptT Failure m RunReport := do
  let start ← w.now
  let (tree, phases) ← (traceAndCommit h e w config).run #[]
  let stop ← w.now
  let rows ← attempt .violation config.rows
  let root ← attempt .violation tree.root
  let cap ← attempt .violation tree.cap
  return {
    hash := config.hash
    capability := capability
    rows := rows
    columns := config.columns
    rateBits := config.rateBits.min
    extendedRows := UInt64.ofNat tree.leafCount
    capHeight := config.capHeight
    phases := phases.toList
    totalMillis := (Duration.ofNanos (stop - start)).millis
    root := h.hex root
    cap := cap.nodes.toList.map h.hex }

/-- A run with the hash that the configuration names. -/
def prove (e : Engine) (w : Stopwatch m) (capability : Capability) (config : RunConfig) :
    ExceptT Failure m RunReport := do
  attempt .config config.validate
  match config.hash with
  | .poseidon => proveWith .poseidon e w capability config
  | .keccak => proveWith (.keccak Keccak.defaultDigestBytes) e w capability config

end TraceCommit
