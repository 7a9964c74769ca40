/-!
# Schedules

When a kernel forks, its work is cut into tasks that own disjoint parts of the
output, and a pool of workers runs each task exactly once, in an order nobody
promises anything about. A `Schedule` is one such course of events: whether
kernels fork at all, how many workers there are, and for every fork a
permutation of its tasks. Forks nest and follow one another, so each is known
by its path: the numbers of the branches that lead to it.

A kernel that does not fork runs its tasks from first to last.

## Main definitions

* `Schedule`: The course of events.
* `Schedule.forksOver`: Whether a kernel over so many elements forks.
* `runTasks`: Runs tasks in an order, each on its own slot.
* `Schedule.update`, `Schedule.collect`: The two ways kernels use them.
-/

namespace TraceCommit

/-- Whether kernels fork, over how many workers, and in which order the tasks
    of each fork run. -/
structure Schedule where
  /-- Whether kernels may fork. -/
  forking : Bool
  /-- The number of workers. -/
  workers : Nat
  /-- The order of the tasks of a fork, by its path and their number. -/
  order : List Nat → Nat → List Nat
  /-- Every task of a fork runs exactly once. -/
  order_perm : ∀ path count, (order path count).Perm (List.range count)

namespace Schedule

/-- No forks. -/
def sequential : Schedule :=
  ⟨false, 1, fun _ count => List.range count, fun _ _ => .refl _⟩

/-- Forks over `workers` workers that happen to finish last tasks first. -/
def backward (workers : Nat) : Schedule :=
  ⟨true, workers, fun _ count => (List.range count).reverse, fun _ _ => List.reverse_perm _⟩

/-- The schedule as seen from branch `i` of a fork or of a sequence of steps. -/
def branch (s : Schedule) (i : Nat) : Schedule :=
  { s with
    order := fun path => s.order (i :: path)
    order_perm := fun path => s.order_perm (i :: path) }

/-- Below this many elements a kernel does not fork. -/
def minimumLength : Nat := 1 <<< 12

/-- Whether a kernel over `length` elements forks. -/
def forksOver (s : Schedule) (length : Nat) : Bool :=
  s.forking && decide (minimumLength ≤ length)

/-- The order of `count` tasks: the schedule's if they are forked, else from
    first to last. -/
def taskOrder (s : Schedule) (forked : Bool) (count : Nat) : List Nat :=
  if forked then s.order [] count else List.range count

end Schedule

variable {α β : Type} {m : Type → Type} [Monad m]

/-- Runs the tasks named by `order`, one after another. Task `i` replaces the
    content of slot `i` and sees no other slot. -/
def runTasks (order : List Nat) (task : Nat → α → m α) (slots : Array α) : m (Array α) :=
  order.foldlM (fun slots i =>
    if h : i < slots.size then do
      let content ← task i slots[i]
      return slots.setIfInBounds i content
    else pure slots) slots

/-- Runs one task on each slot. -/
def Schedule.update (s : Schedule) (forked : Bool) (task : Nat → α → m α)
    (slots : Array α) : m (Array α) :=
  runTasks (s.taskOrder forked slots.size) task slots

/-- Runs `count` tasks that each make one item; items stand in the order of
    their tasks, whatever order the tasks ran in. -/
def Schedule.collect (s : Schedule) (forked : Bool) (count : Nat) (task : Nat → m β) :
    m (Array β) := do
  let slots : Array (Option β) := Array.replicate count none
  let filled ← s.update forked (fun i _ => return some (← task i)) slots
  return filled.filterMap id

end TraceCommit
