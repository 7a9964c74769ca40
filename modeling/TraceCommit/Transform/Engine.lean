import TraceCommit.Kernel.Registry
import TraceCommit.Parallel.Schedule

/-!
# Engines

An engine is what a computation over sequences is carried out with: the batch
kernels it calls and the schedule its forks follow. No result depends on it.

## Main definitions

* `Engine`: Kernels and a schedule.
* `Engine.branch`: The engine of one branch of a fork.
-/

namespace TraceCommit

/-- The kernels and the schedule of a computation. -/
structure Engine where
  /-- The batch kernels. -/
  kernels : Kernels
  /-- The course of the forks. -/
  schedule : Schedule

namespace Engine

/-- Scalar kernels and no forks. -/
def plain : Engine := ⟨.scalar, .sequential⟩

/-- The engine as seen from branch `i`. -/
def branch (e : Engine) (i : Nat) : Engine := { e with schedule := e.schedule.branch i }

end Engine

end TraceCommit
