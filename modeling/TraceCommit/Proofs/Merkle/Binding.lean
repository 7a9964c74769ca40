import TraceCommit.Proofs.Merkle.Opening

/-!
# What an Accepted Opening Binds

Anything can be presented as an opening, so nothing is known here of the row and
the siblings but that they are accepted. The climb and the tree agree at the
cap. From there downward they agree on both children of a node that they agree
on, or else they are two pairs that compress to one digest. So either they agree
all the way down, and what was presented are the tree's own nodes, or the pairs
of the first level on which they differ are a collision.

## Main definitions

* `climbPairs`: The pairs that a climb compresses.

## Theorems

* `climb_take_succ`: They are what the digests of a climb are made of.
* `climb_binds`: A climb that ends at a node of the tree.
* `accepted_opening_binds`: An accepted opening is the tree's own or collides.
-/

namespace TraceCommit

variable {δ : Type} (h : Hasher δ)

/-- The pairs that a climb compresses, the lowest level first. -/
def climbPairs (h : Hasher δ) : UInt64 → δ → List δ → List (δ × δ)
  | _, _, [] => []
  | index, digest, sibling :: rest =>
    let pair := childPair index digest sibling
    pair :: climbPairs h (index >>> 1) (h.compress pair.1 pair.2) rest

theorem length_climbPairs (siblings : List δ) : ∀ (index : UInt64) (digest : δ),
    (climbPairs h index digest siblings).length = siblings.length := by
  induction siblings with
  | nil =>
      intro index digest
      rfl
  | cons sibling rest ih =>
      intro index digest
      rw [climbPairs, List.length_cons, ih, List.length_cons]

/-- After `l + 1` levels a climb has arrived at what pair `l` compresses to. -/
theorem climb_take_succ (siblings : List δ) : ∀ (index : UInt64) (digest : δ) (l : Nat)
    (pair : δ × δ), (climbPairs h index digest siblings)[l]? = some pair →
      (climb h index digest (siblings.take (l + 1))).2 = h.compress pair.1 pair.2 := by
  induction siblings with
  | nil =>
      intro index digest l pair hpair
      cases hpair
  | cons sibling rest ih =>
      intro index digest l pair hpair
      rw [List.take_succ_cons, climb_cons]
      cases l with
      | zero =>
          cases hpair
          rfl
      | succ l => exact ih _ _ l pair hpair

variable {h} {leaf : Nat → δ}

/-- A climb that ends at a node of the tree has started at the node below it and
    has gone along the tree's own nodes, or one of its pairs collides with the
    tree's pair at that place. -/
theorem climb_binds (siblings : List δ) : ∀ (level : Nat) (index : UInt64) (digest : δ),
    (climb h index digest siblings).2 =
        treeNode h leaf (level + siblings.length) (index.toNat >>> siblings.length) →
      digest = treeNode h leaf level index.toNat ∧
          OwnSiblings h leaf level index.toNat siblings ∨
        ∃ l pair, (climbPairs h index digest siblings)[l]? = some pair ∧
          pair ≠ children h leaf (level + l) (index.toNat >>> (l + 1)) ∧
          h.compress pair.1 pair.2 =
            treeNode h leaf (level + l + 1) (index.toNat >>> (l + 1)) := by
  induction siblings with
  | nil =>
      intro level index digest hend
      exact Or.inl ⟨hend, fun l hl => absurd hl (Nat.not_lt_zero l)⟩
  | cons sibling rest ih =>
      intro level index digest hend
      have hlevel : level + 1 + rest.length = level + (rest.length + 1) := by omega
      rw [climb_cons, List.length_cons, ← hlevel, Nat.add_comm rest.length 1, Nat.shiftRight_add,
        ← toNat_shiftRight_one] at hend
      -- What holds above the lowest level is known of the rest of the climb.
      rcases ih (level + 1) (index >>> 1) _ hend with
        ⟨hparent, hrest⟩ | ⟨l, pair, hpair, hne, hsame⟩
      · by_cases hchildren :
          childPair index digest sibling = children h leaf level (index.toNat >>> 1)
        · -- The parents agree because the children do.
          rcases (childPair_eq_children_iff h leaf).mp hchildren with ⟨hdigest, hsibling⟩
          exact Or.inl ⟨hdigest, ownSiblings_cons_iff.mpr ⟨hsibling, hrest⟩⟩
        · -- The parents agree although the children do not.
          exact Or.inr ⟨0, _, rfl, hchildren, hparent⟩
      · -- The collision is one level higher, seen from here.
        have hup : level + 1 + l = level + (l + 1) := by omega
        have hshift : (index >>> 1).toNat >>> (l + 1) = index.toNat >>> (l + 1 + 1) := by
          rw [toNat_shiftRight_one, ← Nat.shiftRight_add, Nat.add_comm 1]
        rw [hup, hshift] at hne hsame
        exact Or.inr ⟨l + 1, pair, hpair, hne, hsame⟩

variable [DecidableEq δ] (s : Schedule)

/-- If anything is accepted as the opening of an index, with as many siblings as
    there are levels below the cap, then the digest of the row is the leaf there
    and each sibling is the tree's own node beside the way up, or on some level
    the climb has compressed a pair other than the tree's and got the same
    digest from it. -/
theorem accepted_opening_binds {leaves : Array δ} {config : MerkleConfig} {t : MerkleTree δ}
    (ht : MerkleTree.ofLeafDigests h s leaves config = .ok t) :
    ∃ cap, t.cap = .ok cap ∧
      ∀ (row : Array Element) (index : UInt64) (proof : MerkleProof δ),
        proof.siblings.length = t.height - t.capHeight →
        verifyOpening h row index cap proof = .ok () →
          (t.node 0 index.toNat = .ok (h.hashRow row) ∧
            ∀ l (hl : l < proof.siblings.length),
              t.node l ((index.toNat >>> l) ^^^ 1) = .ok proof.siblings[l]) ∨
          ∃ l pair left right,
            (climbPairs h index (h.hashRow row) proof.siblings)[l]? = some pair ∧
            (climb h index (h.hashRow row) (proof.siblings.take (l + 1))).2 =
              h.compress pair.1 pair.2 ∧
            t.node l (2 * (index.toNat >>> (l + 1))) = .ok left ∧
            t.node l (2 * (index.toNat >>> (l + 1)) + 1) = .ok right ∧
            t.node (l + 1) (index.toNat >>> (l + 1)) = .ok (h.compress left right) ∧
            pair ≠ (left, right) ∧
            h.compress pair.1 pair.2 = h.compress left right := by
  rcases MerkleTree.over_of_ofLeafDigests h s ht with ⟨last, _, hover, _, _⟩
  refine ⟨_, hover.cap_eq, fun row index proof hlength haccepted => ?_⟩
  rcases (hover.verifyOpening_iff hover.cap_eq hlength).mp haccepted with ⟨hindex, hend⟩
  have hinside {l : Nat} (hl : l ≤ t.height) := (hover.shiftRight_lt_iff hl index.toNat).mpr hindex
  rcases climb_binds proof.siblings 0 index (h.hashRow row) (by rwa [Nat.zero_add]) with
    ⟨hdigest, hown⟩ | ⟨l, pair, hpair, hne, hsame⟩
  · -- The nodes that were presented can be read from the tree.
    refine Or.inl ⟨?_, fun l hl => ?_⟩
    · rw [hdigest]
      exact hover.node_eq (Nat.zero_le _) (hinside (Nat.zero_le _))
    · rw [hown l hl, Nat.zero_add]
      exact hover.node_eq (by omega) (hover.sibling_lt hindex (by omega))
  · -- The children of a node of the tree can be read from it.
    rw [Nat.zero_add] at hne hsame
    have hl : l < proof.siblings.length := by
      rw [← length_climbPairs h proof.siblings index (h.hashRow row)]
      exact (List.getElem?_eq_some_iff.mp hpair).1
    have hparent := hinside (by omega : l + 1 ≤ t.height)
    have hhalf := two_pow_level (by omega : l < t.height)
    exact Or.inr ⟨l, pair, _, _, hpair, climb_take_succ h proof.siblings _ _ l pair hpair,
      hover.node_eq (by omega) (by omega), hover.node_eq (by omega) (by omega),
      hover.node_eq (by omega) hparent, hne, hsame⟩

/-- The opening of row 2 of three, the last of which stands for a fourth. -/
theorem accepted_opening_binds_three : ∃ t cap proof,
    MerkleTree.ofLeafDigests (Hasher.keccak 32) (.backward 2)
      (#[#[1], #[0], #[Element.two]].map (Hasher.keccak 32).hashRow) ⟨1, .duplicateLast⟩ = .ok t ∧
    t.cap = .ok cap ∧ proof.siblings.length = t.height - t.capHeight ∧
    verifyOpening (Hasher.keccak 32) #[Element.two] 2 cap proof = .ok () ∧
    ((t.node 0 2 = .ok ((Hasher.keccak 32).hashRow #[Element.two]) ∧
        ∀ l (hl : l < proof.siblings.length),
          t.node l ((2 >>> l) ^^^ 1) = .ok proof.siblings[l]) ∨
      ∃ pair pair' : KeccakDigest 32 × KeccakDigest 32, pair ≠ pair' ∧
        (Hasher.keccak 32).compress pair.1 pair.2 =
          (Hasher.keccak 32).compress pair'.1 pair'.2) := by
  rcases MerkleTree.exists_ofRows (Hasher.keccak 32) (.backward 2)
    (by decide : 0 < #[#[1], #[0], #[Element.two]].size)
    (Or.inr rfl : _ ∨ (MerkleConfig.mk 1 .duplicateLast).padding = .duplicateLast)
    (by decide : (1 : UInt64).toNat ≤ log2Ceil 3) with ⟨t, ht⟩
  rw [MerkleTree.ofRows_eq] at ht
  rcases MerkleTree.over_of_ofLeafDigests _ _ ht with ⟨last, _, hover, hcommitted, _⟩
  rcases accepted_opening_binds (.backward 2) ht with ⟨cap, hcap, hbinds⟩
  have hindex : (2 : UInt64).toNat < t.committed := by
    rw [hcommitted, Array.size_map]
    decide
  have hrow := MerkleTree.getD_map_hashRow (Hasher.keccak 32) #[#[1], #[0], #[Element.two]] last
    (by decide : (2 : UInt64).toNat < 3)
  rcases hover.opens hcap hindex hrow.symm with ⟨proof, _, hlength, haccepted⟩
  refine ⟨t, cap, proof, ht, hcap, hlength, haccepted, ?_⟩
  rcases hbinds #[Element.two] 2 proof hlength haccepted with
    hown | ⟨_, pair, left, right, _, _, _, _, _, hne, hsame⟩
  · exact Or.inl hown
  · exact Or.inr ⟨pair, (left, right), hne, hsame⟩

end TraceCommit
