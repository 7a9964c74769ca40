import TraceCommit.Violation

/-!
# The Forking Switch

One switch per process says whether kernels may fork. Setting it hands out a
guard that remembers the position found, and dropping the guard puts the
switch back to that position, whatever has happened since.

## Main definitions

* `Switch`: The position and the guards still alive, oldest first.
* `Switch.set`, `Switch.drop`: Taking and dropping a guard.
* `Switch.dropAll`: Dropping every guard, newest first.
-/

namespace TraceCommit

/-- The position of the switch, and for each guard still alive, oldest first,
    the position it puts back. -/
structure Switch where
  /-- Whether kernels may fork. -/
  on : Bool
  /-- What each guard puts back. -/
  guards : List Bool
deriving DecidableEq, Repr

namespace Switch

/-- A switch in the given position that nobody holds a guard of. -/
def atRest (on : Bool) : Switch := ⟨on, []⟩

/-- Sets the switch and takes a guard that puts the old position back. -/
def set (enabled : Bool) (s : Switch) : Switch :=
  ⟨enabled, s.guards ++ [s.on]⟩

/-- Drops the guard with the given number. -/
def drop (index : Nat) (s : Switch) : Except Violation Switch :=
  match s.guards[index]? with
  | some restore => .ok ⟨restore, s.guards.eraseIdx index⟩
  | none => .error .outOfRange

/-- Drops every guard, newest first. -/
def dropAll (s : Switch) : Switch :=
  ⟨s.guards.reverse.foldl (fun _ restore => restore) s.on, []⟩

end Switch

end TraceCommit
