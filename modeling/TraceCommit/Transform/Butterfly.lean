import TraceCommit.Access
import TraceCommit.Chunks
import TraceCommit.Transform.Engine

/-!
# Butterfly Layers

One layer of a radix-2 transform: the sequence is cut into blocks, and in each
block the elements of the lower half meet those of the upper half in
butterflies. Narrow blocks are worked through directly and wider ones by the
engine's kernel.

A layer over a long sequence forks. If there are at least as many blocks as
workers, each block is a task. If there are fewer, the blocks are taken one
after another and the butterflies of each are split into tasks of
`butterflyGrain` pairs.

## Main definitions

* `butterflyBlock`: The butterflies of one block.
* `splitBlock`: The same, split into tasks.
* `butterflyLayer`: The butterflies of all blocks.
-/

namespace TraceCommit

/-- Blocks with a half narrower than this do not go through the kernel. -/
def kernelMinimumHalf : Nat := 16

/-- The number of pairs in one task when a block is split. -/
def butterflyGrain : Nat := 1 <<< 11

/-- The butterflies of one block. -/
def butterflyBlock (kernels : Kernels) (twiddles block : Array Element) :
    Except Violation (Array Element) := do
  let half := block.size / 2
  let (lo, hi) ← splitAt block half
  let (lo, hi) ←
    if half < kernelMinimumHalf then pure (butterflyPairs lo hi twiddles)
    else kernels.butterflies lo hi twiddles
  return lo ++ hi

/-- The butterflies of one block, split into tasks over parts of its halves. -/
def splitBlock (e : Engine) (twiddles block : Array Element) :
    Except Violation (Array Element) := do
  let (lo, hi) ← splitAt block (block.size / 2)
  let los := chunksOf butterflyGrain lo
  let his := chunksOf butterflyGrain hi
  let parts := chunksOf butterflyGrain twiddles
  let pairs ← e.schedule.update true
    (fun i pair => e.kernels.butterflies pair.1 pair.2 (parts.getD i #[]))
    (Array.zipWith Prod.mk los his)
  return (pairs.map (·.1)).flatten ++ (pairs.map (·.2)).flatten

/-- One layer of butterflies over blocks of `m` elements. -/
def butterflyLayer (e : Engine) (twiddles : Array Element) (m : Nat)
    (values : Array Element) : Except Violation (Array Element) := do
  let blocks := chunksOf m values
  let forked := e.schedule.forksOver values.size
  let done ←
    if forked && decide (values.size / m < e.schedule.workers) then
      runTasks (List.range blocks.size) (fun i => splitBlock (e.branch i) twiddles) blocks
    else
      e.schedule.update forked (fun _ => butterflyBlock e.kernels twiddles) blocks
  return done.flatten

end TraceCommit
