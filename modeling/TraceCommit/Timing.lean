import TraceCommit.Failure
import TraceCommit.Json.Codec
import TraceCommit.Word.Checked

/-!
# Timing

A run is made of phases, and each is timed. Where the time comes from is left
to the monad that the run takes place in: a stopwatch reads a clock and carries
out work between two readings. The stopwatch that stands still has no effects
at all, which makes a run a function of its inputs.

## Main definitions

* `Phase`: The phases of a run.
* `Duration`: Seconds and nanoseconds.
* `PhaseTiming`: How long a phase took.
* `Stopwatch`, `Timed`: Running phases and noting their times.
-/

namespace TraceCommit

open Json

/-- The phases of a run. -/
inductive Phase
  /-- Making the trace. -/
  | trace
  /-- From values to coefficients. -/
  | interpolate
  /-- From coefficients to values on the larger coset. -/
  | lde
  /-- From columns to rows. -/
  | transpose
  /-- From rows to leaf digests. -/
  | hashRows
  /-- From leaf digests to the tree. -/
  | commit
deriving DecidableEq, Repr

/-- The name of a phase. -/
def Phase.name : Phase → String
  | .trace => "trace"
  | .interpolate => "interpolate"
  | .lde => "lde"
  | .transpose => "transpose"
  | .hashRows => "hash_rows"
  | .commit => "commit"

/-- The nanoseconds of a second. -/
def nanosPerSecond : UInt32 := 1000000000

/-- A span of time. -/
structure Duration where
  /-- Whole seconds. -/
  seconds : UInt64
  /-- What is left, in nanoseconds. -/
  nanos : UInt32
  /-- What is left is less than a second. -/
  nanos_lt : nanos < nanosPerSecond

namespace Duration

/-- The span of some seconds and nanoseconds; of the latter there may be more
    than make up a second. -/
def ofParts (seconds : UInt64) (nanos : UInt32) : Except Violation Duration := do
  let seconds ← Checked.add seconds (nanos / nanosPerSecond).toUInt64
  return ⟨seconds, nanos % nanosPerSecond, UInt32.mod_lt nanos (by decide)⟩

/-- The span of some nanoseconds, the seconds taken modulo `2 ^ 64`. -/
def ofNanos (n : Nat) : Duration :=
  ⟨UInt64.ofNat (n / nanosPerSecond.toNat),
    UInt32.ofNat (n % nanosPerSecond.toNat) % nanosPerSecond, UInt32.mod_lt _ (by decide)⟩

/-- The span in milliseconds: that in seconds, rounded, times a thousand. -/
def millis (d : Duration) : Float :=
  (d.seconds.toFloat + d.nanos.toFloat / nanosPerSecond.toFloat) * 1e3

end Duration

/-- How long a phase took. -/
structure PhaseTiming where
  /-- The name of the phase. -/
  phase : String
  /-- Its time in milliseconds. -/
  millis : Float

/-- The timing of a phase. -/
def PhaseTiming.of (phase : String) (elapsed : Duration) : PhaseTiming := ⟨phase, elapsed.millis⟩

/-- A timing as a record. -/
def PhaseTiming.codec : Codec PhaseTiming where
  write t := .record [("phase", .text t.phase), ("millis", .float t.millis)]
  read? v := do
    match ← v.record? ["phase", "millis"] false with
    | [phase, millis] => return ⟨← required Value.text? phase, ← required Value.float? millis⟩
    | _ => none

/-- A clock, and a way to do work between two readings of it. -/
structure Stopwatch (m : Type → Type) where
  /-- The nanoseconds since some moment that stays the same. -/
  now : m Nat
  /-- Carries out work; it is done when this returns. -/
  carryOut : {α : Type} → (Unit → α) → m α

/-- The stopwatch that stands still. -/
def Stopwatch.still : Stopwatch Id := ⟨pure 0, fun work => pure (work ())⟩

/-- A run that may fail and notes the times of its phases, in order. -/
abbrev Timed (m : Type → Type) := StateT (Array PhaseTiming) (ExceptT Failure m)

variable {m : Type → Type} [Monad m] {ε α : Type}

/-- Carries out a phase and notes its time. -/
def Stopwatch.phase (w : Stopwatch m) (phase : Phase) (work : Unit → α) : Timed m α := do
  let start ← w.now
  let result ← w.carryOut work
  let stop ← w.now
  modify (·.push (.of phase.name (.ofNanos (stop - start))))
  return result

/-- Carries out a phase that may fail. -/
def Stopwatch.phaseOrFail (w : Stopwatch m) (phase : Phase) (cause : ε → Failure)
    (work : Unit → Except ε α) : Timed m α := do
  let value ← attempt (m := m) cause (← w.phase phase work)
  return value

end TraceCommit
