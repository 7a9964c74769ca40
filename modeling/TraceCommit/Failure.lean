import TraceCommit.Config.Error
import TraceCommit.Merkle.Options
import TraceCommit.Transform.Error

/-!
# Failures

What can go wrong in a run as a whole.

## Main definitions

* `TraceDefect`: What is wrong with a trace.
* `Failure`: Why a run fails.
* `Failure.message?`: Its wording.
* `attempt`: A step that can fail.

## Theorems

* `run_lift_bind`: A step of a run that may have no end.
-/

namespace TraceCommit

/-- What is wrong with a trace. -/
inductive TraceDefect
  /-- It has no columns. -/
  | noColumns
  /-- Its columns do not share one height. -/
  | unequalColumns
deriving DecidableEq, Repr

/-- The wording of a defect. -/
def TraceDefect.message : TraceDefect → String
  | .noColumns => "trace has no columns"
  | .unequalColumns => "trace columns differ in height"

/-- Why a run fails. -/
inductive Failure
  /-- There is no configuration to run with. -/
  | config (error : ConfigError)
  /-- The capability cannot be used. -/
  | capability (error : CapabilityError)
  /-- The trace cannot be committed to. -/
  | trace (defect : TraceDefect)
  /-- A transform is refused. -/
  | transform (error : TransformError)
  /-- The commitment is refused. -/
  | merkle (error : MerkleError)
  /-- A calling contract was broken on the way. -/
  | violation (broken : Violation)
deriving DecidableEq, Repr

/-- The wording of a failure. -/
def Failure.message? : Failure → Option String
  | .config error => error.message?
  | .capability error => some error.message
  | .trace defect => some s!"invalid input: {defect.message}"
  | .transform error => error.message?
  | .merkle error => error.message?
  | .violation broken => broken.message?

variable {m : Type → Type} [Monad m] {ε α β : Type}

/-- Carries on with a result, or fails because of its error. -/
def attempt (cause : ε → Failure) : Except ε α → ExceptT Failure m α
  | .ok a => pure a
  | .error e => throw (cause e)

/-- In a run that may have no end, a step that has one goes on with its result. -/
theorem run_lift_bind [LawfulMonad m] (step : m α) (next : α → OptionT m β) :
    (OptionT.lift step >>= next).run = step >>= fun a => (next a).run := by
  rw [OptionT.run_bind, OptionT.run_lift, Option.elimM, bind_pure_comp, bind_map_left]
  rfl

end TraceCommit
