import TraceCommit.CommandLine.Run
import TraceCommit.Sweep.Generator

/-!
# The Command Line

Reads the arguments, the environment and the file that the arguments name, and
prints what the command reports. Command lines that are not understood end
with code 2, failures with code 1.
-/

namespace TraceCommit

/-- The line that tells how the program is called. -/
def usageLine : String :=
  "usage: trace-commit [OPTIONS] prove|lde-sweep|config [OPTIONS]"

/-- The number of a system's error, which some calls report negated. -/
def errorNumber (code : UInt32) : UInt32 := if code < 0x80000000 then code else 0 - code

/-- Why the system does not give a file out. -/
def fileFailure (e : IO.Error) : FileFailure :=
  match e with
  | .noFileOrDirectory .. => .notFound
  | .permissionDenied .. => .permissionDenied
  | .inappropriateType _ code _ =>
    if errorNumber code = 20 then .notDirectory else .isDirectory
  | .invalidArgument _ code _ =>
    if errorNumber code = 36 then .nameTooLong else .other (toString e)
  | other => .other (toString other)

/-- Reads a file as text. -/
def readConfig (path : String) : IO ConfigFile := do
  let text ← try
    let bytes ← IO.FS.readBinFile path
    pure (textOfBytes bytes)
  catch e => pure (.error (fileFailure e))
  return ⟨path, text⟩

/-- The variables of the environment that hold settings. -/
def readVariables : IO (List (String × String)) :=
  Variable.all.filterMapM fun key => do
    return (← IO.getEnv key.key).map fun value => (key.key, value)

/-- Does the work when it is called, not before and not after. -/
@[noinline] def workNow {α : Type} (work : Unit → α) : BaseIO α := pure (work ())

/-- The stopwatch of the machine. -/
def machineStopwatch : Stopwatch BaseIO := ⟨IO.monoNanosNow, workNow⟩

end TraceCommit

open TraceCommit

/-- Carries out a command line. -/
def main (arguments : List String) : IO UInt32 := do
  match Arguments.parse? arguments with
  | none =>
    IO.eprintln usageLine
    return 2
  | some arguments =>
    let file ← arguments.config.mapM readConfig
    let settings ← readVariables
    let result ← (arguments.run machineStopwatch .generator .fresh .sequential file
      fun key => settings.lookup key).run.run
    match result with
    | .ok (some value) =>
      IO.println value.pretty
      return 0
    | .ok none =>
      -- A run without an end does not come back to say so.
      return 1
    | .error failure =>
      IO.eprintln (failure.message?.getD "the run failed")
      return 1
