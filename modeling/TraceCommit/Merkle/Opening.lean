import TraceCommit.Merkle.Tree
import TraceCommit.Word.Checked

/-!
# Verifying Openings

An opening is checked by walking up from the leaf: the digest so far is
compressed with the next sibling, on the side that the index's lowest bit
tells, and the bit is dropped. What is left of the index when the siblings run
out is the number of a cap node, and the digest must be that node.

## Main definitions

* `capNode`: The cap node that a leaf digest and its siblings lead to.
* `verifyOpening`: The check of a leaf row against a cap.
-/

namespace TraceCommit

variable {δ : Type}

/-- Walks up from a digest at an index along siblings. -/
def climb (h : Hasher δ) (index : UInt64) (digest : δ) : List δ → UInt64 × δ
  | [] => (index, digest)
  | sibling :: rest =>
    let parent :=
      if index &&& 1 = 0 then h.compress digest sibling else h.compress sibling digest
    climb h (index >>> 1) parent rest

/-- The number of the cap node reached, and the digest found for it. -/
def capNode (h : Hasher δ) (leafDigest : δ) (index : UInt64) (proof : MerkleProof δ) :
    UInt64 × δ :=
  climb h index leafDigest proof.siblings

/-- Checks that a row is opened at an index of the tree with this cap. An index
    beyond the leaves that the cap and the opening span is refused as such; their
    number is a shifted word. -/
def verifyOpening [DecidableEq δ] (h : Hasher δ) (row : Array Element) (index : UInt64)
    (cap : MerkleCap δ) (proof : MerkleProof δ) : Except MerkleError Unit := do
  let (capIndex, digest) := capNode h (h.hashRow row) index proof
  -- The bits of the index that no sibling consumed number the cap node.
  match cap.nodes[capIndex.toNat]? with
  | some expected => if expected = digest then return () else throw .verificationFailed
  | none =>
    let leafCount ←
      Checked.shiftLeft (UInt64.ofNat cap.length) (UInt64.ofNat proof.siblings.length)
    throw (.indexOutOfRange index leafCount.toNat)

end TraceCommit
