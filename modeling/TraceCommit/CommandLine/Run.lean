import TraceCommit.CommandLine.Arguments
import TraceCommit.Config.Layers
import TraceCommit.Parallel.Switch
import TraceCommit.Report
import TraceCommit.Sweep.Samples

/-!
# Running a Command

The configuration is resolved from its layers, the switch is set for the time
of the command, and the process settles on the configuration's capability.
Then the command is carried out, and what it reports is a JSON value. Commands
that draw coefficients have no end if the source of words never yields enough
canonical ones; all others end.

## Main definitions

* `Arguments.run`: Carries out a command line.
-/

namespace TraceCommit

open Json

variable {m : Type → Type} [Monad m] {σ : Type}

/-- The schedule with forks turned off unless the switch is on. -/
def Switch.restrict (s : Switch) (schedule : Schedule) : Schedule :=
  { schedule with forking := schedule.forking && s.on }

/-- Carries out a command. -/
def runCommand (command : Command) (e : Engine) (w : Stopwatch m) (source : SeededSource σ)
    (capability : Capability) (config : RunConfig) : OptionT (ExceptT Failure m) Value :=
  match command with
  | .prove => RunReport.codec.write <$> OptionT.lift (prove e w capability config)
  | .sweep seed => SweepReport.write <$> sweep e w source capability config seed
  | .config => pure (RunConfig.codec.write config)

/-- Carries out a command line in a process that has settled on what the registry
    says. The file is the one that the command line names, if it names one. -/
def Arguments.run (arguments : Arguments) (w : Stopwatch m) (source : SeededSource σ)
    (registry : Registry) (schedule : Schedule) (file : Option ConfigFile)
    (lookup : String → Option String) : OptionT (ExceptT Failure m) Value := do
  let config ← OptionT.lift (attempt .config
    (RunConfig.resolve arguments.profile file lookup arguments.overrides))
  let switch := (Switch.atRest true).set (!arguments.sequential)
  let capability ← OptionT.lift
    (attempt .capability (registry.install config.capability).1)
  let e : Engine := ⟨Kernels.of capability, switch.restrict schedule⟩
  runCommand arguments.command e w source capability config

end TraceCommit
