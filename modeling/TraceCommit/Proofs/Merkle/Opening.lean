import TraceCommit.Hash.Keccak.Sponge
import TraceCommit.Merkle.Opening
import TraceCommit.Proofs.Merkle.Built
import Mathlib.Data.Nat.Bitwise

/-!
# Openings That Verify

An opening holds, on each level below the cap, the node beside the way up from
the leaf. Climbing it follows that way: on every level the digest so far and the
sibling are taken for the two children of the node one level up, and the lowest
bit of what is left of the index tells which of them is the left one. They are
those children exactly if each of them is the node it stands for, and so a climb
along the tree's own nodes ends at the node of the cap that stands above the
leaf.

## Main definitions

* `childPair`: A digest and its sibling, in their order.
* `children`: The two nodes that a node is the compression of.
* `OwnSiblings`: Digests that are the nodes beside the way up.

## Theorems

* `childPair_eq_children_iff`: When a pair is that of the children.
* `toNat_climb_fst`: What is left of the index after a climb.
* `climb_of_ownSiblings`: Where a climb along a tree's own nodes ends.
* `verifyOpening_eq`, `verifyOpening_eq_ok_iff`: The check, and what is accepted.
* `MerkleTree.Over.opens`: The opening of a committed leaf.
* `openings_verify`: Every row of a tree opens, and no other index does.
-/

namespace TraceCommit

variable {δ : Type}

/-- The lowest bit of a word, as a number. -/
theorem and_one_eq_zero_iff (index : UInt64) : index &&& 1 = 0 ↔ index.toNat % 2 = 0 := by
  rw [← UInt64.toNat_inj, UInt64.toNat_and]
  exact Iff.of_eq (congrArg (· = 0) (Nat.and_one_is_mod _))

theorem toNat_shiftRight_one (index : UInt64) : (index >>> 1).toNat = index.toNat >>> 1 := rfl

/-- A digest and its sibling in the order that the lowest bit of the digest's
    number tells. -/
def childPair (index : UInt64) (digest sibling : δ) : δ × δ :=
  if index &&& 1 = 0 then (digest, sibling) else (sibling, digest)

variable (h : Hasher δ) (leaf : Nat → δ)

/-- One level of a climb compresses the pair. -/
theorem climb_cons (index : UInt64) (digest sibling : δ) (rest : List δ) :
    climb h index digest (sibling :: rest) = climb h (index >>> 1)
      (h.compress (childPair index digest sibling).1 (childPair index digest sibling).2) rest := by
  unfold childPair
  rw [climb]
  by_cases hbit : index &&& 1 = 0
  · rw [if_pos hbit, if_pos hbit]
  · rw [if_neg hbit, if_neg hbit]

/-- The two nodes of a level that node `i` of the next level is made of. -/
def children (level i : Nat) : δ × δ :=
  (treeNode h leaf level (2 * i), treeNode h leaf level (2 * i + 1))

theorem treeNode_succ (level i : Nat) : treeNode h leaf (level + 1) i =
    h.compress (children h leaf level i).1 (children h leaf level i).2 :=
  rfl

/-- A pair is that of the children exactly if the digest and its sibling are the
    nodes they stand for. -/
theorem childPair_eq_children_iff {level : Nat} {index : UInt64} {digest sibling : δ} :
    childPair index digest sibling = children h leaf level (index.toNat >>> 1) ↔
      digest = treeNode h leaf level index.toNat ∧
        sibling = treeNode h leaf level (index.toNat ^^^ 1) := by
  have hhalf : index.toNat >>> 1 = index.toNat / 2 := Nat.shiftRight_one _
  unfold childPair children
  by_cases heven : index.toNat % 2 = 0
  · -- The node is the left child, so its sibling is the next one.
    have hleft : 2 * (index.toNat / 2) = index.toNat := by omega
    rw [if_pos ((and_one_eq_zero_iff index).mpr heven),
      Nat.xor_one_of_even (Nat.even_iff.mpr heven), hhalf, hleft, Prod.mk.injEq]
  · -- The node is the right child, so its sibling is the one before it.
    have hodd : index.toNat % 2 = 1 := by omega
    have hleft : 2 * (index.toNat / 2) = index.toNat - 1 := by omega
    have hright : index.toNat - 1 + 1 = index.toNat := by omega
    rw [if_neg (fun hbit => heven ((and_one_eq_zero_iff index).mp hbit)),
      Nat.xor_one_of_odd (Nat.odd_iff.mpr hodd), hhalf, hleft, hright, Prod.mk.injEq, and_comm]

/-- The digests are the nodes beside the way up from a node, one on each level. -/
def OwnSiblings (level i : Nat) (siblings : List δ) : Prop :=
  ∀ l (hl : l < siblings.length), siblings[l] = treeNode h leaf (level + l) ((i >>> l) ^^^ 1)

variable {h leaf}

/-- The first stands beside the node, and the others beside the way up from its
    parent. -/
theorem ownSiblings_cons_iff {level i : Nat} {sibling : δ} {rest : List δ} :
    OwnSiblings h leaf level i (sibling :: rest) ↔
      sibling = treeNode h leaf level (i ^^^ 1) ∧
        OwnSiblings h leaf (level + 1) (i >>> 1) rest := by
  have hup (l : Nat) : level + (l + 1) = level + 1 + l := by omega
  have hshift (l : Nat) : i >>> (l + 1) = (i >>> 1) >>> l := by
    rw [Nat.add_comm, Nat.shiftRight_add]
  constructor
  · intro hown
    refine ⟨hown 0 (Nat.succ_pos _), fun l hl => ?_⟩
    rw [← hup, ← hshift]
    exact hown (l + 1) (Nat.succ_lt_succ hl)
  · rintro ⟨hfirst, hrest⟩ l hl
    cases l with
    | zero => exact hfirst
    | succ l =>
        rw [hup, hshift]
        exact hrest l (Nat.lt_of_succ_lt_succ hl)

variable (h) in
/-- Each sibling takes one bit of the index. -/
theorem toNat_climb_fst (siblings : List δ) : ∀ (index : UInt64) (digest : δ),
    (climb h index digest siblings).1.toNat = index.toNat >>> siblings.length := by
  induction siblings with
  | nil =>
      intro index digest
      rfl
  | cons sibling rest ih =>
      intro index digest
      rw [climb_cons, ih, toNat_shiftRight_one, ← Nat.shiftRight_add, List.length_cons,
        Nat.add_comm]

/-- A climb from a node along the tree's own nodes ends at the node above it. -/
theorem climb_of_ownSiblings (siblings : List δ) : ∀ (level : Nat) (index : UInt64),
    OwnSiblings h leaf level index.toNat siblings →
      (climb h index (treeNode h leaf level index.toNat) siblings).2 =
        treeNode h leaf (level + siblings.length) (index.toNat >>> siblings.length) := by
  induction siblings with
  | nil =>
      intro level index _
      rfl
  | cons sibling rest ih =>
      intro level index hown
      rcases ownSiblings_cons_iff.mp hown with ⟨hfirst, hrest⟩
      -- One level of the climb makes the parent, whose way up is the rest.
      have hpair := (childPair_eq_children_iff h leaf).mpr ⟨rfl, hfirst⟩
      have hlevel : level + 1 + rest.length = level + (rest.length + 1) := by omega
      rw [climb_cons, hpair, ← treeNode_succ, ← toNat_shiftRight_one,
        ih (level + 1) (index >>> 1) hrest, toNat_shiftRight_one, ← Nat.shiftRight_add,
        Nat.add_comm 1 rest.length, hlevel, List.length_cons]

namespace MerkleTree.Over

variable {t : MerkleTree δ}

/-- The way up from a leaf, and from nowhere else, lies inside the levels. -/
theorem shiftRight_lt_iff (ht : t.Over h leaf) {l : Nat} (hl : l ≤ t.height) (index : Nat) :
    index >>> l < 2 ^ (t.height - l) ↔ index < t.leafCount := by
  rw [ht.leafCount]
  exact shiftRight_lt_two_pow_iff (Nat.sub_add_cancel hl)

/-- What stands beside it below the root does as well. -/
theorem sibling_lt (ht : t.Over h leaf) {index l : Nat} (hindex : index < t.leafCount)
    (hl : l < t.height) : (index >>> l) ^^^ 1 < 2 ^ (t.height - l) :=
  Nat.xor_lt_two_pow ((ht.shiftRight_lt_iff (Nat.le_of_lt hl) index).mpr hindex)
    (Nat.one_lt_two_pow (by omega))

/-- The children of a node can be read from the tree. -/
theorem children_eq (ht : t.Over h leaf) {l i : Nat} (hl : l < t.height)
    (hi : i < 2 ^ (t.height - (l + 1))) :
    t.node l (2 * i) = .ok (children h leaf l i).1 ∧
      t.node l (2 * i + 1) = .ok (children h leaf l i).2 ∧
      t.node (l + 1) i =
        .ok (h.compress (children h leaf l i).1 (children h leaf l i).2) := by
  have hhalf := two_pow_level hl
  exact ⟨ht.node_eq (by omega) (by omega), ht.node_eq (by omega) (by omega), ht.node_eq hl hi⟩

/-- What is proved of a committed leaf are the tree's own nodes, up to the cap. -/
theorem prove_eq (ht : t.Over h leaf) {index : UInt64} (hindex : index.toNat < t.committed) :
    ∃ siblings, t.prove index = .ok ⟨siblings⟩ ∧ siblings.length = t.height - t.capHeight ∧
      OwnSiblings h leaf 0 index.toNat siblings := by
  have hleaf := Nat.lt_of_lt_of_le hindex ht.committed
  have hread : (List.range (t.height - t.capHeight)).mapM (fun l =>
      (liftM (t.node l ((index.toNat >>> l) ^^^ 1)) : Except MerkleError δ)) =
        .ok ((List.range (t.height - t.capHeight)).map fun l =>
          treeNode h leaf l ((index.toNat >>> l) ^^^ 1)) := by
    refine mapM_eq_pure (fun l hl => ?_)
    rw [List.mem_range] at hl
    rw [ht.node_eq (by omega) (ht.sibling_lt hleaf (by omega))]
    rfl
  refine ⟨(List.range (t.height - t.capHeight)).map fun l =>
    treeNode h leaf l ((index.toNat >>> l) ^^^ 1), ?_, ?_, fun l hl => ?_⟩
  · unfold prove
    rw [if_neg (by omega)]
    show (do
      let siblings ← (List.range (t.height - t.capHeight)).mapM fun l =>
        (liftM (t.node l ((index.toNat >>> l) ^^^ 1)) : Except MerkleError δ)
      _) = _
    rw [hread]
    rfl
  · rw [List.length_map, List.length_range]
  · rw [List.getElem_map, List.getElem_range, Nat.zero_add]

/-- The nodes of the cap are those that stand on its level. -/
theorem cap_getElem? (ht : t.Over h leaf) {cap : MerkleCap δ} (hcap : t.cap = .ok cap)
    {i : Nat} {digest : δ} : cap.nodes[i]? = some digest ↔
      i < 2 ^ t.capHeight ∧ digest = treeNode h leaf (t.height - t.capHeight) i := by
  rw [ht.cap_eq, Except.ok.injEq] at hcap
  subst hcap
  rw [Array.getElem?_eq_some_iff]
  constructor
  · rintro ⟨hlt, rfl⟩
    rw [Array.size_ofFn] at hlt
    exact ⟨hlt, Array.getElem_ofFn _⟩
  · rintro ⟨hlt, rfl⟩
    exact ⟨by rwa [Array.size_ofFn], Array.getElem_ofFn _⟩

end MerkleTree.Over

variable [DecidableEq δ]

variable {row : Array Element} {index : UInt64} {cap : MerkleCap δ} {proof : MerkleProof δ}

variable (h row index cap proof) in
/-- The check looks for what is left of the index in the cap. Only where there is
    no such node are the leaves counted. -/
theorem verifyOpening_eq : verifyOpening h row index cap proof =
    match cap.nodes[index.toNat >>> proof.siblings.length]? with
    | some expected =>
      if expected = (climb h index (h.hashRow row) proof.siblings).2 then .ok ()
      else .error .verificationFailed
    | none =>
      match Checked.shiftLeft (UInt64.ofNat cap.length) (UInt64.ofNat proof.siblings.length) with
      | .ok leafCount => .error (.indexOutOfRange index leafCount.toNat)
      | .error broken => .error (.violation broken) := by
  rw [← toNat_climb_fst h proof.siblings index (h.hashRow row)]
  unfold verifyOpening capNode
  simp only []
  cases cap.nodes[(climb h index (h.hashRow row) proof.siblings).1.toNat]? with
  | some expected => rfl
  | none =>
      cases Checked.shiftLeft (UInt64.ofNat cap.length) (UInt64.ofNat proof.siblings.length) with
      | ok leafCount => rfl
      | error broken => rfl

variable (h) in
/-- An opening is accepted if the climb ends at the node of the cap with the
    number that is left of the index. -/
theorem verifyOpening_eq_ok_iff : verifyOpening h row index cap proof = .ok () ↔
    cap.nodes[index.toNat >>> proof.siblings.length]? =
      some (climb h index (h.hashRow row) proof.siblings).2 := by
  rw [verifyOpening_eq]
  cases cap.nodes[index.toNat >>> proof.siblings.length]? with
  | some expected =>
      simp only [Option.some.injEq, ite_eq_left_iff, reduceCtorEq, imp_false, not_not]
  | none =>
      -- With or without a number of leaves to report, the index is refused.
      cases Checked.shiftLeft (UInt64.ofNat cap.length) (UInt64.ofNat proof.siblings.length) with
      | ok leafCount => simp only [reduceCtorEq]
      | error broken => simp only [reduceCtorEq]

namespace MerkleTree.Over

variable {t : MerkleTree δ}

/-- An opening of the right length is accepted exactly if it is for a leaf and
    climbs to the cap node above it. -/
theorem verifyOpening_iff (ht : t.Over h leaf) (hcap : t.cap = .ok cap)
    (hlength : proof.siblings.length = t.height - t.capHeight) :
    verifyOpening h row index cap proof = .ok () ↔ index.toNat < t.leafCount ∧
      (climb h index (h.hashRow row) proof.siblings).2 =
        treeNode h leaf proof.siblings.length (index.toNat >>> proof.siblings.length) := by
  have hcount : t.height - (t.height - t.capHeight) = t.capHeight :=
    Nat.sub_sub_self ht.capHeight
  have hinside := ht.shiftRight_lt_iff (Nat.sub_le t.height t.capHeight) index.toNat
  rw [hcount] at hinside
  rw [verifyOpening_eq_ok_iff, ht.cap_getElem? hcap, hlength, hinside]

/-- A committed leaf is opened, and its row is accepted with the opening. -/
theorem opens (ht : t.Over h leaf) (hcap : t.cap = .ok cap)
    (hindex : index.toNat < t.committed) (hrow : h.hashRow row = leaf index.toNat) :
    ∃ proof, t.prove index = .ok proof ∧ proof.siblings.length = t.height - t.capHeight ∧
      verifyOpening h row index cap proof = .ok () := by
  rcases ht.prove_eq hindex with ⟨siblings, hprove, hlength, hown⟩
  have hleaf := Nat.lt_of_lt_of_le hindex ht.committed
  -- The climb starts at the leaf of the row, so it ends at the cap node above it.
  have hclimb := climb_of_ownSiblings siblings 0 index hown
  rw [treeNode, ← hrow, Nat.zero_add] at hclimb
  exact ⟨⟨siblings⟩, hprove, hlength, (ht.verifyOpening_iff hcap hlength).mpr ⟨hleaf, hclimb⟩⟩

end MerkleTree.Over

variable (s : Schedule)

/-- Every row that a tree is built over opens at its index, with a sibling for
    each level below the cap, and the opening is accepted. No other index opens. -/
theorem openings_verify {rows : Array (Array Element)} {config : MerkleConfig}
    {t : MerkleTree δ} (ht : MerkleTree.ofRows h s rows config = .ok t) :
    ∃ cap, t.cap = .ok cap ∧
      (∀ (index : UInt64) (hindex : index.toNat < rows.size), ∃ proof,
        t.prove index = .ok proof ∧ proof.siblings.length = t.height - t.capHeight ∧
          verifyOpening h rows[index.toNat] index cap proof = .ok ()) ∧
      (∀ index : UInt64, rows.size ≤ index.toNat →
        t.prove index = .error (.indexOutOfRange index rows.size)) := by
  rw [MerkleTree.ofRows_eq] at ht
  rcases MerkleTree.over_of_ofLeafDigests h s ht with ⟨last, _, hover, hcommitted, _⟩
  rw [Array.size_map] at hcommitted
  refine ⟨_, hover.cap_eq, fun index hindex => ?_, fun index hindex => ?_⟩
  · have hrow := MerkleTree.getD_map_hashRow h rows last hindex
    exact hover.opens hover.cap_eq (by rwa [hcommitted]) hrow.symm
  · unfold MerkleTree.prove
    rw [hcommitted, if_pos hindex]
    rfl

/-- Three rows, the last of them standing for a fourth, with a cap of two nodes:
    row 2 opens with one sibling, and index 3 does not open. -/
theorem openings_verify_three : ∃ t cap proof,
    MerkleTree.ofRows (Hasher.keccak 32) (.backward 2) #[#[1], #[0], #[Element.two]]
      ⟨1, .duplicateLast⟩ = .ok t ∧ t.cap = .ok cap ∧ t.prove 2 = .ok proof ∧
    proof.siblings.length = t.height - t.capHeight ∧
    verifyOpening (Hasher.keccak 32) #[Element.two] 2 cap proof = .ok () ∧
    t.prove 3 = .error (.indexOutOfRange 3 3) := by
  rcases MerkleTree.exists_ofRows (Hasher.keccak 32) (.backward 2)
    (by decide : 0 < #[#[1], #[0], #[Element.two]].size)
    (Or.inr rfl : _ ∨ (MerkleConfig.mk 1 .duplicateLast).padding = .duplicateLast)
    (by decide : (1 : UInt64).toNat ≤ log2Ceil 3) with ⟨t, ht⟩
  rcases openings_verify (.backward 2) ht with ⟨cap, hcap, hopen, hclosed⟩
  rcases hopen 2 (by decide) with ⟨proof, hprove, hlength, hverify⟩
  exact ⟨t, cap, proof, ht, hcap, hprove, hlength, hverify, hclosed 3 (by decide)⟩

end TraceCommit
