import TraceCommit.Access
import TraceCommit.Matrix
import TraceCommit.Merkle.Cap
import TraceCommit.Merkle.Options
import TraceCommit.Word.Bits

/-!
# Merkle Trees

A binary tree over a power of two `n` of leaf digests, held in one flat array
of `2 * n - 1` digests. Level `l` has `n / 2 ^ l` nodes, level 0 being the
leaves, and starts at offset `2 * n - 2 * (n / 2 ^ l)`, right behind the level
below it; the last digest is the root. A node is the compression of its two
children.

The array has its full length before the first level is compressed. It is split
where a level starts: the children are the end of the first part, the parents the
beginning of the second one, and they are replaced by what the children compress
to. Leaf rows are hashed, and levels compressed, in forked tasks where there are
many.

## Main definitions

* `MerkleTree`: The digests and the numbers that describe them.
* `hashRows`, `compressLevel`: The work that forks.
* `MerkleTree.buildLevel`, `MerkleTree.buildLevels`: The levels above the leaves.
* `MerkleTree.ofLeafDigests`, `MerkleTree.ofRows`, `MerkleTree.ofMatrix`:
  Committing.
* `MerkleTree.level`, `MerkleTree.root`, `MerkleTree.cap`: Its nodes.
* `MerkleTree.prove`: The opening of a leaf.
-/

namespace TraceCommit

/-- A tree over leaf digests. -/
structure MerkleTree (δ : Type) where
  /-- All nodes, level by level from the leaves. -/
  digests : Array δ
  /-- The number of leaves, padding included. -/
  leafCount : Nat
  /-- The number of leaves committed to. -/
  committed : Nat
  /-- How far below the root openings stop. -/
  capHeight : Nat
deriving DecidableEq

/-- The siblings on the way from a leaf up to the cap, lowest first. -/
structure MerkleProof (δ : Type) where
  /-- The siblings. -/
  siblings : List δ
deriving DecidableEq

/-- From this many nodes on, a level forks. -/
def forkedLevelMinimum : Nat := 1 <<< 8

/-- Where a level starts in the flat array of a tree. -/
def levelOffset (leafCount level : Nat) : Nat := 2 * leafCount - 2 * (leafCount >>> level)

variable {δ : Type}

/-- The digests of `count` rows, each of which must be there. -/
def hashRows (h : Hasher δ) (s : Schedule) (count : Nat) (row : Nat → Option (Array Element)) :
    Except Violation (Array δ) :=
  s.collect (s.forking && decide (forkedLevelMinimum ≤ count)) count fun i =>
    match row i with
    | some row => .ok (h.hashRow row)
    | none => .error .outOfRange

/-- The digests of the rows of a matrix. -/
def hashMatrixRows (h : Hasher δ) (s : Schedule) (m : Matrix Element) :
    Except Violation (Array δ) :=
  hashRows h s m.height fun i => (m.row i).toOption

/-- Replaces the parents of the nodes of a level, which are twice as many, by what
    these compress to. -/
def compressLevel (h : Hasher δ) (s : Schedule) (children parents : Array δ) :
    Except Violation (Array δ) :=
  if children.size ≠ 2 * parents.size then .error (.levelSizes children.size parents.size)
  else
    s.update (s.forking && decide (forkedLevelMinimum ≤ parents.size)) (fun i _ => do
      let left ← itemAt children (2 * i)
      let right ← itemAt children (2 * i + 1)
      return h.compress left right) parents

namespace MerkleTree

/-- Leaves brought to a power of two by repeating the last one, or the refusal to
    do so. -/
def padLeaves (leaves : Array δ) (last : δ) (padding : PaddingPolicy) :
    Except MerkleError (Array δ) :=
  if IsTwoPower leaves.size then .ok leaves
  else
    match padding with
    | .reject => .error (.invalidLeafCount leaves.size)
    | .duplicateLast =>
      .ok (leaves ++ Array.replicate ((1 <<< log2Ceil leaves.size) - leaves.size) last)

/-- Fills a level of the tree, out of the one below it. -/
def buildLevel (h : Hasher δ) (s : Schedule) (leafCount : Nat) (digests : Array δ)
    (level : Nat) : Except Violation (Array δ) := do
  let (below, above) ← splitAt digests (levelOffset leafCount level)
  let children ← slice below (levelOffset leafCount (level - 1)) below.size
  let parents ← slice above 0 (leafCount >>> level)
  let parents ← compressLevel h (s.branch level) children parents
  return below ++ parents ++ above.extract (leafCount >>> level)

/-- All levels of the tree over a power of two of leaves, one after another. -/
def buildLevels (h : Hasher δ) (s : Schedule) (leaves : Array δ) (last : δ) (height : Nat) :
    Except Violation (Array δ) :=
  let digests := leaves ++ Array.replicate (2 * leaves.size - 1 - leaves.size) last
  (List.range' 1 height).foldlM (buildLevel h s leaves.size) digests

/-- Commits to leaf digests. -/
def ofLeafDigests (h : Hasher δ) (s : Schedule) (leaves : Array δ) (config : MerkleConfig) :
    Except MerkleError (MerkleTree δ) :=
  match leaves.back? with
  | none => .error .emptyCommitment
  | some last => do
    let padded ← padLeaves leaves last config.padding
    let height ← log2Strict padded.size
    if height < config.capHeight.toNat then
      throw (.capHeightTooLarge config.capHeight height)
    let digests ← buildLevels h s padded last height
    return ⟨digests, padded.size, leaves.size, config.capHeight.toNat⟩

/-- Commits to rows, one leaf for each. -/
def ofRows (h : Hasher δ) (s : Schedule) (rows : Array (Array Element)) (config : MerkleConfig) :
    Except MerkleError (MerkleTree δ) := do
  let leaves ← hashRows h s rows.size fun i => rows[i]?
  ofLeafDigests h s leaves config

/-- Commits to the rows of a matrix. -/
def ofMatrix (h : Hasher δ) (s : Schedule) (m : Matrix Element) (config : MerkleConfig) :
    Except MerkleError (MerkleTree δ) := do
  let leaves ← hashMatrixRows h s m
  ofLeafDigests h s leaves config

/-- The number of levels above the leaves. -/
def height (t : MerkleTree δ) : Nat := t.leafCount.log2

/-- The nodes of a level, the leaves being level 0. -/
def level (t : MerkleTree δ) (l : Nat) : Except Violation (Array δ) :=
  let start := levelOffset t.leafCount l
  slice t.digests start (start + (t.leafCount >>> l))

/-- The node with a number on a level. -/
def node (t : MerkleTree δ) (l i : Nat) : Except Violation δ :=
  if i < t.leafCount >>> l then itemAt t.digests (levelOffset t.leafCount l + i)
  else .error .outOfRange

/-- The digest at the top, the last one of the array. -/
def root (t : MerkleTree δ) : Except Violation δ :=
  match t.digests.back? with
  | some digest => .ok digest
  | none => .error .outOfRange

/-- The nodes at which openings stop. -/
def cap (t : MerkleTree δ) : Except Violation (MerkleCap δ) :=
  MerkleCap.mk <$> t.level (t.height - t.capHeight)

/-- The opening of a committed leaf: on each level below the cap, the sibling of
    the node on the way up. -/
def prove (t : MerkleTree δ) (index : UInt64) : Except MerkleError (MerkleProof δ) := do
  if t.committed ≤ index.toNat then throw (.indexOutOfRange index t.committed)
  -- The sibling of a node differs from it in the lowest bit of its number.
  let siblings ← (List.range (t.height - t.capHeight)).mapM fun l =>
    liftM (t.node l ((index.toNat >>> l) ^^^ 1))
  return ⟨siblings⟩

end MerkleTree

/-- The root over leaf digests, whose number must be a power of two. -/
def merkleRoot (h : Hasher δ) (s : Schedule) (leaves : Array δ) : Except MerkleError δ := do
  let t ← MerkleTree.ofLeafDigests h s leaves .standard
  t.root

end TraceCommit
