import TraceCommit.Merkle.Tree
import TraceCommit.Timing
import TraceCommit.Transform.Extension

/-!
# Committing to a Trace

A trace is a list of columns, each the values of a polynomial over a subgroup.
The polynomials are interpolated and extended onto a larger coset, and the
tree's leaves are the rows of the extended table: leaf `i` holds the values of
all columns at point `i` of the coset.

## Main definitions

* `commitTrace`: The tree over the extended trace.
-/

namespace TraceCommit

variable {m : Type → Type} [Monad m] {δ : Type}

/-- Commits to a trace: its columns, extended by a rate, become rows, and the
    rows the leaves of a tree. -/
def commitTrace (h : Hasher δ) (e : Engine) (w : Stopwatch m) (columns : Array (Array Element))
    (rateBits : UInt64) (config : MerkleConfig) : Timed m (MerkleTree δ) := do
  let height ← match columns[0]? with
    | some column => pure column.size
    | none => throw (.trace .noColumns)
  if columns.any (·.size != height) then throw (.trace .unequalColumns)
  let coefficients ← w.phaseOrFail .interpolate .transform fun _ =>
    interpolateColumns (e.branch 0) columns
  let extended ← w.phaseOrFail .lde .transform fun _ =>
    ldeBatch (e.branch 1) coefficients rateBits
  let rows ← w.phaseOrFail .transpose .violation fun _ =>
    Matrix.ofColumns (e.branch 2).schedule extended
  let leaves ← w.phaseOrFail .hashRows .violation fun _ =>
    hashMatrixRows h (e.branch 3).schedule rows
  w.phaseOrFail .commit .merkle fun _ =>
    MerkleTree.ofLeafDigests h (e.branch 4).schedule leaves config

end TraceCommit
