import TraceCommit.Field.Element
import TraceCommit.Parallel.Schedule
import TraceCommit.Storage

/-!
# The Fibonacci Trace

The trace that runs commit to. A column starts with its seed and the element
after it, and goes on with the sum of the last two. Column `c` has seed `c`;
several columns fork. A trace with more columns, or with longer ones, than
memory has room for is refused.

## Main definitions

* `fibonacciColumn`: One column.
* `fibonacciTrace`: All columns.
-/

namespace TraceCommit

/-- Appends `count` values of the sequence that starts with two elements. -/
def appendFibonacci : Nat → Element → Element → Array Element → Array Element
  | 0, _, _, column => column
  | count + 1, a, b, column => appendFibonacci count b (a + b) (column.push a)

/-- The column of a seed: `seed`, `seed + 1`, and so on. -/
def fibonacciColumn (seed : UInt64) (rows : Nat) : Except Violation (Array Element) := do
  requireRoom Element.byteCount rows
  let start := Element.ofWord seed
  return appendFibonacci rows start (start + 1) #[]

/-- The columns of seeds zero and up. -/
def fibonacciTrace (s : Schedule) (rows columns : Nat) :
    Except Violation (Array (Array Element)) := do
  requireRoom sequenceHandleBytes columns
  s.collect (s.forking && decide (1 < columns)) columns fun c =>
    fibonacciColumn (UInt64.ofNat c) rows

end TraceCommit
