import TraceCommit.Proofs.Merkle.Halves
import TraceCommit.Proofs.Merkle.Opening

/-!
# What a Cap Binds

Two trees over equally many leaf digests are compared from the cap downward. If
they have the same nodes on a level, then on the level below they have the same
nodes too, or else some node is the compression of one pair in one tree and of
another pair in the other. So trees with one cap have the same leaves, or somewhere
below it two different pairs of their own nodes are compressed to one digest.

In particular a cap changes with every leaf, and with the order of two different
leaves, for as long as no such pairs are met.

## Main definitions

* `TreesCollide`: Two trees compress different pairs to one digest.

## Theorems

* `agree_below`: What trees that agree on a level do one level below.
* `agree_or_collide`: What they do down to the leaves.
* `MerkleTree.Over.eq_or_collide`: Trees with one cap.
* `equal_caps_bind`: The leaf digests of trees with one cap.
-/

namespace TraceCommit

variable {δ : Type}

/-- At some place below the cap two trees compress different pairs of their own
    nodes to one digest. -/
def TreesCollide (h : Hasher δ) (t t' : MerkleTree δ) : Prop :=
  ∃ l i left right left' right', l < t.height - t.capHeight ∧
    t.node l (2 * i) = .ok left ∧ t.node l (2 * i + 1) = .ok right ∧
    t'.node l (2 * i) = .ok left' ∧ t'.node l (2 * i + 1) = .ok right' ∧
    t.node (l + 1) i = .ok (h.compress left right) ∧
    t'.node (l + 1) i = .ok (h.compress left' right') ∧
    (left, right) ≠ (left', right') ∧ h.compress left right = h.compress left' right'

variable {h : Hasher δ} {leaf leaf' : Nat → δ} {height : Nat}

/-- Trees that agree on a level agree on the level below, or a node is made of
    different pairs. -/
theorem agree_below {l : Nat} (hl : l < height)
    (hagree : ∀ i < 2 ^ (height - (l + 1)),
      treeNode h leaf (l + 1) i = treeNode h leaf' (l + 1) i) :
    (∀ i < 2 ^ (height - l), treeNode h leaf l i = treeNode h leaf' l i) ∨
      ∃ i < 2 ^ (height - (l + 1)), children h leaf l i ≠ children h leaf' l i ∧
        treeNode h leaf (l + 1) i = treeNode h leaf' (l + 1) i := by
  have hhalf := two_pow_level hl
  by_cases hchildren : ∀ i < 2 ^ (height - (l + 1)), children h leaf l i = children h leaf' l i
  · refine Or.inl (fun i hi => ?_)
    have hpair := hchildren (i / 2) (by omega)
    unfold children at hpair
    rw [Prod.mk.injEq] at hpair
    -- Every node of the level is the left or the right child of some node.
    rcases Nat.mod_two_eq_zero_or_one i with heven | hodd
    · have hleft : 2 * (i / 2) = i := by omega
      rw [hleft] at hpair
      exact hpair.1
    · have hright : 2 * (i / 2) + 1 = i := by omega
      rw [hright] at hpair
      exact hpair.2
  · simp only [not_forall] at hchildren
    rcases hchildren with ⟨i, hi, hne⟩
    exact Or.inr ⟨i, hi, hne, hagree i hi⟩

/-- Trees that agree on a level agree on the leaves, or on some level below a
    node is made of different pairs. -/
theorem agree_or_collide (top : Nat) : top ≤ height →
    (∀ i < 2 ^ (height - top), treeNode h leaf top i = treeNode h leaf' top i) →
      (∀ i < 2 ^ height, leaf i = leaf' i) ∨
        ∃ l < top, ∃ i < 2 ^ (height - (l + 1)), children h leaf l i ≠ children h leaf' l i ∧
          treeNode h leaf (l + 1) i = treeNode h leaf' (l + 1) i := by
  induction top with
  | zero =>
      intro _ hagree
      exact Or.inl hagree
  | succ top ih =>
      intro htop hagree
      rcases agree_below htop hagree with hbelow | ⟨i, hi, hcollide⟩
      · rcases ih (Nat.le_of_lt htop) hbelow with hleaves | ⟨l, hl, hcollide⟩
        · exact Or.inl hleaves
        · exact Or.inr ⟨l, Nat.lt_succ_of_lt hl, hcollide⟩
      · exact Or.inr ⟨top, Nat.lt_succ_self top, i, hi, hcollide⟩

namespace MerkleTree

variable {t t' : MerkleTree δ}

/-- Trees whose nodes at the level of the cap are the same have the same leaves,
    or collide below it. -/
theorem Over.eq_or_collide (ht : t.Over h leaf) (ht' : t'.Over h leaf')
    (hheight : t'.height = t.height)
    (hagree : ∀ i < 2 ^ t.capHeight, treeNode h leaf (t.height - t.capHeight) i =
      treeNode h leaf' (t.height - t.capHeight) i) :
    (∀ i < t.leafCount, leaf i = leaf' i) ∨ TreesCollide h t t' := by
  have hcount : t.height - (t.height - t.capHeight) = t.capHeight :=
    Nat.sub_sub_self ht.capHeight
  rcases agree_or_collide (t.height - t.capHeight) (Nat.sub_le _ _) (by rwa [hcount]) with
    hleaves | ⟨l, hl, i, hi, hne, hsame⟩
  · rw [ht.leafCount]
    exact Or.inl hleaves
  · -- All nodes that take part can be read from the trees.
    rcases ht.children_eq (by omega : l < t.height) hi with ⟨hleft, hright, hparent⟩
    rcases ht'.children_eq (by omega : l < t'.height) (by rwa [hheight]) with
      ⟨hleft', hright', hparent'⟩
    exact Or.inr ⟨l, i, _, _, _, _, hl, hleft, hright, hleft', hright', hparent, hparent', hne,
      hsame⟩

/-- A cap of one node is the root, so nothing is lost by comparing the roots. -/
theorem Over.agree_at_cap (ht : t.Over h leaf) (ht' : t'.Over h leaf')
    (hheight : t'.height = t.height) (hcapHeight : t'.capHeight = t.capHeight)
    (hsame : t'.cap = t.cap ∨ t.capHeight = 0 ∧ t'.root = t.root) :
    ∀ i < 2 ^ t.capHeight, treeNode h leaf (t.height - t.capHeight) i =
      treeNode h leaf' (t.height - t.capHeight) i := by
  intro i hi
  rcases hsame with hcap | ⟨hzero, hroot⟩
  · -- Node `i` of the one cap is node `i` of the other.
    have hnode := (ht'.cap_getElem? (hcap.trans ht.cap_eq)).mp ((ht.cap_getElem? ht.cap_eq).mpr
      ⟨hi, rfl⟩)
    rw [hheight, hcapHeight] at hnode
    exact hnode.2
  · rw [ht'.root_eq, ht.root_eq, Except.ok.injEq, hheight] at hroot
    rw [hzero, Nat.pow_zero, Nat.lt_one_iff] at hi
    rw [hzero, hi, Nat.sub_zero, hroot]

variable (h) (s s' : Schedule)

/-- Whether a tree is built depends on the number of leaf digests only. -/
theorem exists_of_size_eq {leaves leaves' : Array δ} {config : MerkleConfig}
    (ht : ofLeafDigests h s leaves config = .ok t) (hsize : leaves'.size = leaves.size) :
    ∃ t', ofLeafDigests h s' leaves' config = .ok t' := by
  rcases (ofLeafDigests_eq_ok_iff h s).mp ht with ⟨hpadding, hcap, last, _, hlast, _⟩
  have hleaves : 0 < leaves.size := by
    rw [Array.back?_eq_getElem?, Array.getElem?_eq_some_iff] at hlast
    exact Nat.zero_lt_of_lt hlast.1
  rw [← hsize] at hpadding hcap hleaves
  exact exists_ofLeafDigests h s' hleaves hpadding hcap

/-- Trees with one cap, or with one root where the cap is the root, are over the
    same leaf digests or collide. -/
theorem eq_or_collide_of_ofLeafDigests {leaves leaves' : Array δ} {config : MerkleConfig}
    (ht : ofLeafDigests h s leaves config = .ok t) (hsize : leaves'.size = leaves.size)
    (ht' : ofLeafDigests h s' leaves' config = .ok t')
    (hsame : t'.cap = t.cap ∨ config.capHeight = 0 ∧ t'.root = t.root) :
    leaves' = leaves ∨ TreesCollide h t t' := by
  rcases over_of_ofLeafDigests h s ht with ⟨last, _, hover, hcommitted, hcap⟩
  rcases over_of_ofLeafDigests h s' ht' with ⟨last', _, hover', _, hcap'⟩
  have hheight : t'.height = t.height := by
    rw [height_of_ofLeafDigests h s ht, height_of_ofLeafDigests h s' ht', hsize]
  have hsame' : t'.cap = t.cap ∨ t.capHeight = 0 ∧ t'.root = t.root := by
    refine hsame.imp_right (fun hroot => ⟨?_, hroot.2⟩)
    rw [hcap, hroot.1]
    rfl
  have hagree := hover.agree_at_cap hover' hheight (hcap'.trans hcap.symm) hsame'
  rcases hover.eq_or_collide hover' hheight hagree with hleaves | hcollide
  · refine Or.inl (Array.ext hsize (fun i hi' hi => ?_))
    have hleaf := hleaves i (Nat.lt_of_lt_of_le hi (hcommitted ▸ hover.committed))
    rw [← Array.getElem_eq_getD (h := hi), ← Array.getElem_eq_getD (h := hi')] at hleaf
    exact hleaf.symm
  · exact Or.inr hcollide

end MerkleTree

/-- Trees of one shape with the same cap, or with the same root where the cap is
    the root, are over the same leaf digests, or below the cap they compress two
    different pairs of their own nodes to one digest. So a leaf digest is not
    changed, and two different ones are not exchanged, without changing the cap
    or finding such pairs. -/
theorem equal_caps_bind (h : Hasher δ) (s s' : Schedule) {leaves : Array δ} {config : MerkleConfig}
    {t : MerkleTree δ} (ht : MerkleTree.ofLeafDigests h s leaves config = .ok t) :
    (∀ (leaves' : Array δ) (t' : MerkleTree δ), leaves'.size = leaves.size →
      MerkleTree.ofLeafDigests h s' leaves' config = .ok t' →
      t'.cap = t.cap ∨ config.capHeight = 0 ∧ t'.root = t.root →
        leaves' = leaves ∨ TreesCollide h t t') ∧
      (∀ i (hi : i < leaves.size) (digest : δ), digest ≠ leaves[i] → ∃ t',
        MerkleTree.ofLeafDigests h s' (leaves.set i digest) config = .ok t' ∧
          (t'.cap ≠ t.cap ∨ TreesCollide h t t')) ∧
      (∀ i j (hi : i < leaves.size) (hj : j < leaves.size), leaves[i] ≠ leaves[j] → ∃ t',
        MerkleTree.ofLeafDigests h s' (leaves.swap i j) config = .ok t' ∧
          (t'.cap ≠ t.cap ∨ TreesCollide h t t')) := by
  -- Other leaf digests have a tree too, with another cap if there is no collision.
  have hother {leaves' : Array δ} (hsize : leaves'.size = leaves.size) (hne : leaves' ≠ leaves) :
      ∃ t', MerkleTree.ofLeafDigests h s' leaves' config = .ok t' ∧
        (t'.cap ≠ t.cap ∨ TreesCollide h t t') := by
    rcases MerkleTree.exists_of_size_eq h s s' ht hsize with ⟨t', ht'⟩
    refine ⟨t', ht', ?_⟩
    by_cases hcap : t'.cap = t.cap
    · exact Or.inr ((MerkleTree.eq_or_collide_of_ofLeafDigests h s s' ht hsize ht'
        (Or.inl hcap)).resolve_left hne)
    · exact Or.inl hcap
  refine ⟨fun leaves' t' hsize ht' hsame =>
    MerkleTree.eq_or_collide_of_ofLeafDigests h s s' ht hsize ht' hsame, ?_, ?_⟩
  · intro i hi digest hne
    refine hother (Array.size_set hi) (fun heq => hne ?_)
    have hset : (leaves.set i digest hi)[i]? = some digest := Array.getElem?_set_self hi
    rw [heq, Array.getElem?_eq_getElem hi, Option.some.injEq] at hset
    exact hset.symm
  · intro i j hi hj hne
    refine hother Array.size_swap (fun heq => hne ?_)
    have hswap : (leaves.swap i j hi hj)[i]? = some leaves[j] := by
      rw [Array.getElem?_eq_getElem (by rwa [Array.size_swap]), Array.getElem_swap_left]
    rw [heq, Array.getElem?_eq_getElem hi, Option.some.injEq] at hswap
    exact hswap

/-- Three digests, the last of them standing for a fourth: the second is changed,
    and the first two are exchanged. -/
theorem equal_caps_bind_three : ∃ t t' t'' : MerkleTree (KeccakDigest 32),
    MerkleTree.ofLeafDigests (Hasher.keccak 32) (.backward 2)
      #[⟨.replicate 32 0⟩, ⟨.replicate 32 1⟩, ⟨.replicate 32 2⟩] ⟨1, .duplicateLast⟩ = .ok t ∧
    MerkleTree.ofLeafDigests (Hasher.keccak 32) .sequential
      #[⟨.replicate 32 0⟩, ⟨.replicate 32 2⟩, ⟨.replicate 32 2⟩] ⟨1, .duplicateLast⟩ = .ok t' ∧
    (t'.cap ≠ t.cap ∨ TreesCollide (Hasher.keccak 32) t t') ∧
    MerkleTree.ofLeafDigests (Hasher.keccak 32) .sequential
      #[⟨.replicate 32 1⟩, ⟨.replicate 32 0⟩, ⟨.replicate 32 2⟩] ⟨1, .duplicateLast⟩ = .ok t'' ∧
    (t''.cap ≠ t.cap ∨ TreesCollide (Hasher.keccak 32) t t'') := by
  rcases MerkleTree.exists_ofLeafDigests (Hasher.keccak 32) (.backward 2)
    (by decide : 0 < (#[⟨.replicate 32 0⟩, ⟨.replicate 32 1⟩, ⟨.replicate 32 2⟩] :
      Array (KeccakDigest 32)).size)
    (Or.inr rfl : _ ∨ (MerkleConfig.mk 1 .duplicateLast).padding = .duplicateLast)
    (by decide : (1 : UInt64).toNat ≤ log2Ceil 3) with ⟨t, ht⟩
  rcases equal_caps_bind (Hasher.keccak 32) (.backward 2) .sequential ht with
    ⟨_, hchange, hexchange⟩
  rcases hchange 1 (by decide) ⟨.replicate 32 2⟩ (by decide) with ⟨t', ht', hcap'⟩
  rcases hexchange 0 1 (by decide) (by decide) (by decide) with ⟨t'', ht'', hcap''⟩
  exact ⟨t, t', t'', ht, ht', hcap', ht'', hcap''⟩

end TraceCommit
