import TraceCommit.Proofs.Hash.Sponge
import TraceCommit.Proofs.Merkle.Binding

/-!
# How Deep an Opening Starts

The check of an opening is not told how high the tree is. It climbs as many
levels as there are siblings, so it is the opening that says on which level the
climb starts, and a climb that reaches the cap may have started above the leaves
or below them.

With fewer siblings than there are levels, what is presented is an inner node.
That is always possible: a row may be the node's digest, or its two children side
by side, and the siblings above it are the tree's own. With more siblings, the
climb passes through a leaf, so a committed row has been taken apart into the two
digests that it is the compression of. Apart from that an opening of another
length is accepted only if the climb compresses another pair than the tree to the
same digest.

## Main definitions

* `ClimbCollides`: The climb compresses another pair than the tree.
* `OpensInnerNode`: An inner node is opened as a row.
* `DividesRow`: A committed row is opened as a node.

## Theorems

* `climb_append_binds`: Where a climb has been before its last siblings.
* `MerkleTree.Over.accepted_binds`: What a climb to the cap has passed.
* `MerkleTree.Over.opens_at`: An opening from any level.
* `accepted_opening_depth`: What the length of an accepted opening tells.
* `children_open_as_row`: The length of an accepted opening is not determined.
-/

namespace TraceCommit

variable {δ : Type} (h : Hasher δ)

/-- Climbing along more siblings goes on from where fewer of them lead. -/
theorem climb_append (rest : List δ) (siblings : List δ) : ∀ (index : UInt64) (digest : δ),
    climb h index digest (siblings ++ rest) =
      climb h (climb h index digest siblings).1 (climb h index digest siblings).2 rest := by
  induction siblings with
  | nil =>
      intro index digest
      rfl
  | cons sibling siblings ih =>
      intro index digest
      rw [List.cons_append, climb_cons, climb_cons, ih]

theorem climbPairs_append (rest : List δ) (siblings : List δ) :
    ∀ (index : UInt64) (digest : δ), climbPairs h index digest (siblings ++ rest) =
      climbPairs h index digest siblings ++
        climbPairs h (climb h index digest siblings).1 (climb h index digest siblings).2 rest := by
  induction siblings with
  | nil =>
      intro index digest
      rfl
  | cons sibling siblings ih =>
      intro index digest
      rw [List.cons_append, climbPairs, climbPairs, climb_cons, ih, List.cons_append]

/-- A climb that has a sibling behind it has arrived at what its last pair
    compresses to. -/
theorem exists_lastPair {front : List δ} (rest : List δ) (index : UInt64) (digest : δ) {k : Nat}
    (hfront : front.length = k + 1) :
    ∃ left right, (climbPairs h index digest (front ++ rest))[k]? = some (left, right) ∧
      (climb h index digest front).2 = h.compress left right := by
  have hk : k < (climbPairs h index digest (front ++ rest)).length := by
    rw [length_climbPairs, List.length_append]
    omega
  have hpair := List.getElem?_eq_getElem hk
  have hlast := climb_take_succ h (front ++ rest) index digest k _ hpair
  rw [List.take_left' hfront] at hlast
  exact ⟨_, _, hpair, hlast⟩

/-- At some place on the way up the climb compresses a pair other than the tree's
    own and gets the same digest from it. Pair `k` of the climb belongs to level
    `l` of the tree, as the climb and the levels end at the same cap. -/
def ClimbCollides (t : MerkleTree δ) (row : Array Element) (index : UInt64)
    (proof : MerkleProof δ) : Prop :=
  ∃ k l pair left right, l + proof.siblings.length = t.height - t.capHeight + k ∧
    (climbPairs h index (h.hashRow row) proof.siblings)[k]? = some pair ∧
    t.node l (2 * (index.toNat >>> (k + 1))) = .ok left ∧
    t.node l (2 * (index.toNat >>> (k + 1)) + 1) = .ok right ∧
    t.node (l + 1) (index.toNat >>> (k + 1)) = .ok (h.compress left right) ∧
    pair ≠ (left, right) ∧ h.compress pair.1 pair.2 = h.compress left right

/-- There are nodes beside the way up from any place. -/
theorem exists_ownSiblings (leaf : Nat → δ) (level i length : Nat) :
    ∃ siblings : List δ, siblings.length = length ∧ OwnSiblings h leaf level i siblings := by
  refine ⟨(List.range length).map fun l => treeNode h leaf (level + l) ((i >>> l) ^^^ 1), ?_,
    fun l hl => ?_⟩
  · rw [List.length_map, List.length_range]
  · rw [List.getElem_map, List.getElem_range]

variable {h} {leaf : Nat → δ} {t : MerkleTree δ} {cap : MerkleCap δ}

/-- A climb that ends at a node of the tree has passed the node below it where its
    last siblings begin, and they are the tree's own nodes, or one of the pairs
    compressed with them collides with the tree's pair at that place. -/
theorem climb_append_binds {front rest : List δ} {index : UInt64} {digest : δ} {level : Nat}
    (hend : (climb h index digest (front ++ rest)).2 =
      treeNode h leaf (level + rest.length) (index.toNat >>> (front.length + rest.length))) :
    (climb h index digest front).2 = treeNode h leaf level (index.toNat >>> front.length) ∧
        OwnSiblings h leaf level (index.toNat >>> front.length) rest ∨
      ∃ k pair, k < rest.length ∧
        (climbPairs h index digest (front ++ rest))[front.length + k]? = some pair ∧
        pair ≠ children h leaf (level + k) (index.toNat >>> (front.length + k + 1)) ∧
        h.compress pair.1 pair.2 =
          treeNode h leaf (level + k + 1) (index.toNat >>> (front.length + k + 1)) := by
  have hposition := toNat_climb_fst h front index digest
  have hshift (k : Nat) : index.toNat >>> front.length >>> k = index.toNat >>> (front.length + k) :=
    (Nat.shiftRight_add _ _ _).symm
  -- The rest of the climb starts where the siblings before have led.
  rw [climb_append, ← hshift, ← hposition] at hend
  rcases climb_binds rest level _ _ hend with ⟨hnode, hown⟩ | ⟨k, pair, hpair, hne, hsame⟩
  · rw [hposition] at hnode hown
    exact Or.inl ⟨hnode, hown⟩
  · rw [hposition, hshift] at hne hsame
    refine Or.inr ⟨k, pair, ?_, ?_, hne, hsame⟩
    · rw [← length_climbPairs h rest]
      exact (List.getElem?_eq_some_iff.mp hpair).1
    · rw [climbPairs_append, List.getElem?_append_right (by rw [length_climbPairs]; omega),
        length_climbPairs, Nat.add_sub_cancel_left]
      exact hpair

namespace MerkleTree.Over

/-- The nodes beside the way up from a node can be read from the tree. -/
theorem node_of_ownSiblings (ht : t.Over h leaf) {level i : Nat} {siblings : List δ}
    (hown : OwnSiblings h leaf level i siblings) (hlevel : level + siblings.length ≤ t.height)
    (hi : i < 2 ^ (t.height - level)) {l : Nat} (hl : l < siblings.length) :
    t.node (level + l) ((i >>> l) ^^^ 1) = .ok siblings[l] := by
  have hshift := (shiftRight_lt_two_pow_iff (i := i)
    (by omega : t.height - (level + l) + l = t.height - level)).mpr hi
  rw [hown l hl]
  exact ht.node_eq (by omega) (Nat.xor_lt_two_pow hshift (Nat.one_lt_two_pow (by omega)))

/-- The tree's own nodes beside the way up from a node on any level below the cap
    open it, for every row that has its digest. -/
theorem opens_at [DecidableEq δ] (ht : t.Over h leaf) (hcap : t.cap = .ok cap) {level : Nat}
    (hlevel : level ≤ t.height - t.capHeight) {index : UInt64}
    (hindex : index.toNat < 2 ^ (t.height - level)) :
    ∃ proof : MerkleProof δ, level + proof.siblings.length = t.height - t.capHeight ∧
      ∀ row, h.hashRow row = treeNode h leaf level index.toNat →
        verifyOpening h row index cap proof = .ok () := by
  have hle := ht.capHeight
  rcases exists_ownSiblings h leaf level index.toNat (t.height - t.capHeight - level) with
    ⟨siblings, hlength, hown⟩
  have hend : level + siblings.length = t.height - t.capHeight := by omega
  have hinside := (shiftRight_lt_two_pow_iff (i := index.toNat)
    (by omega : t.capHeight + siblings.length = t.height - level)).mpr hindex
  refine ⟨⟨siblings⟩, hend, fun row hrow => ?_⟩
  rw [verifyOpening_eq_ok_iff, hrow, climb_of_ownSiblings siblings level index hown,
    ht.cap_getElem? hcap, hend]
  exact ⟨hinside, rfl⟩

/-- A climb that is accepted has reached a node of the cap. If its last siblings
    are as many as there are levels between a level and the cap, then what it had
    reached before them is a node of that level, and they are the tree's own
    nodes, or it collides with the tree. -/
theorem accepted_binds [DecidableEq δ] (ht : t.Over h leaf) (hcap : t.cap = .ok cap)
    {row : Array Element} {index : UInt64} {front rest : List δ}
    (haccepted : verifyOpening h row index cap ⟨front ++ rest⟩ = .ok ()) {level : Nat}
    (hlevel : level + rest.length = t.height - t.capHeight) :
    index.toNat >>> front.length < 2 ^ (t.height - level) ∧
      ((climb h index (h.hashRow row) front).2 =
          treeNode h leaf level (index.toNat >>> front.length) ∧
        OwnSiblings h leaf level (index.toNat >>> front.length) rest ∨
      ClimbCollides h t row index ⟨front ++ rest⟩) := by
  have hle := ht.capHeight
  rw [verifyOpening_eq_ok_iff, ht.cap_getElem? hcap] at haccepted
  rcases haccepted with ⟨hinside, hend⟩
  simp only [List.length_append] at hinside hend
  -- The way up from where the siblings before have led stays inside the levels.
  have hup (k : Nat) (hk : k ≤ rest.length) :
      index.toNat >>> (front.length + k) < 2 ^ (t.height - (level + k)) := by
    have hsum : front.length + k + (rest.length - k) = front.length + rest.length := by omega
    rw [← shiftRight_lt_two_pow_iff
      (by omega : t.capHeight + (rest.length - k) = t.height - (level + k)),
      ← Nat.shiftRight_add, hsum]
    exact hinside
  refine ⟨hup 0 (Nat.zero_le _), ?_⟩
  rw [← hlevel] at hend
  rcases climb_append_binds hend with hown | ⟨k, pair, hk, hpair, hne, hsame⟩
  · exact Or.inl hown
  · rcases ht.children_eq (by omega : level + k < t.height) (hup (k + 1) hk) with
      ⟨hleft, hright, hparent⟩
    refine Or.inr ⟨front.length + k, level + k, pair, _, _, ?_, hpair, hleft, hright, hparent,
      hne, hsame⟩
    rw [List.length_append]
    omega

end MerkleTree.Over

variable (constants : Poseidon.RoundConstants)

/-- An inner node of the tree is opened as a row: the row is made of the node, or
    is hashed to the same digest, and the siblings are the tree's own nodes. -/
def OpensInnerNode (t : MerkleTree PoseidonDigest) (row : Array Element) (index : UInt64)
    (proof : MerkleProof PoseidonDigest) : Prop :=
  ∃ l left right, l + 1 + proof.siblings.length = t.height - t.capHeight ∧
    t.node l (2 * index.toNat) = .ok left ∧ t.node l (2 * index.toNat + 1) = .ok right ∧
    t.node (l + 1) index.toNat = .ok (Poseidon.compress constants left right) ∧
    (∀ k (hk : k < proof.siblings.length),
      t.node (l + 1 + k) ((index.toNat >>> k) ^^^ 1) = .ok proof.siblings[k]) ∧
    (Poseidon.NodeRow constants left right row ∨ Poseidon.HashCollision constants left right row)

/-- A committed row is opened as if it was a node: it is made of the last pair
    that the climb compresses below the leaves, or is hashed to the same digest,
    and the siblings above it are the tree's own nodes. -/
def DividesRow (rows : Array (Array Element)) (t : MerkleTree PoseidonDigest)
    (row : Array Element) (index : UInt64) (proof : MerkleProof PoseidonDigest) : Prop :=
  ∃ k left right committed, proof.siblings.length = t.height - t.capHeight + (k + 1) ∧
    (climbPairs (.poseidonWith constants) index (Poseidon.hashRow constants row)
      proof.siblings)[k]? = some (left, right) ∧
    t.node 0 (index.toNat >>> (k + 1)) = .ok (Poseidon.compress constants left right) ∧
    (∀ l (hl : k + 1 + l < proof.siblings.length),
      t.node l ((index.toNat >>> (k + 1 + l)) ^^^ 1) = .ok proof.siblings[k + 1 + l]) ∧
    rows[min (index.toNat >>> (k + 1)) (rows.size - 1)]? = some committed ∧
    (Poseidon.NodeRow constants left right committed ∨
      Poseidon.HashCollision constants left right committed)

variable {constants} {rows : Array (Array Element)}

/-- The rows behind the leaves: behind the end they are the last one again. -/
theorem exists_committed {last : PoseidonDigest} {i : Nat}
    (hlast : (rows.map (Poseidon.hashRow constants)).back? = some last) :
    ∃ committed, rows[min i (rows.size - 1)]? = some committed ∧
      (rows.map (Poseidon.hashRow constants)).getD i last =
        Poseidon.hashRow constants committed := by
  rw [Array.back?_eq_getElem?, Array.size_map, Array.getElem?_map, Option.map_eq_some_iff] at hlast
  rcases hlast with ⟨lastRow, hlastRow, rfl⟩
  rcases Nat.lt_or_ge i rows.size with hlt | hge
  · have hmin : min i (rows.size - 1) = i := by omega
    rw [hmin, Array.getD_eq_getD_getElem?, Array.getElem?_map, Array.getElem?_eq_getElem hlt]
    exact ⟨_, rfl, rfl⟩
  · have hmin : min i (rows.size - 1) = rows.size - 1 := by omega
    rw [hmin, Array.getD_eq_getD_getElem?, Array.getElem?_map, Array.getElem?_eq_none hge]
    exact ⟨lastRow, hlastRow, rfl⟩

variable {leaf : Nat → PoseidonDigest} {t : MerkleTree PoseidonDigest}
  {cap : MerkleCap PoseidonDigest} {row : Array Element} {index : UInt64}
  {proof : MerkleProof PoseidonDigest}

namespace MerkleTree.Over

/-- With fewer siblings than levels an inner node is opened. -/
theorem opensInnerNode (ht : t.Over (.poseidonWith constants) leaf) (hcap : t.cap = .ok cap)
    (haccepted : verifyOpening (.poseidonWith constants) row index cap proof = .ok ())
    (hshort : proof.siblings.length < t.height - t.capHeight) :
    OpensInnerNode constants t row index proof ∨
      ClimbCollides (.poseidonWith constants) t row index proof := by
  obtain ⟨l, hl⟩ : ∃ l, l + 1 + proof.siblings.length = t.height - t.capHeight :=
    ⟨t.height - t.capHeight - proof.siblings.length - 1, by omega⟩
  have hwhole : verifyOpening (.poseidonWith constants) row index cap ⟨[] ++ proof.siblings⟩ =
      .ok () := haccepted
  rcases ht.accepted_binds hcap hwhole hl with ⟨hinside, ⟨hnode, hown⟩ | hcollide⟩
  · rcases ht.children_eq (by omega) hinside with ⟨hleft, hright, hparent⟩
    -- Nothing has been climbed yet, so the node has the digest of the row.
    exact Or.inl ⟨l, _, _, hl, hleft, hright, hparent,
      fun k hk => ht.node_of_ownSiblings hown (by omega) hinside hk,
      (Poseidon.hashRow_eq_compress_iff constants).mp hnode⟩
  · exact Or.inr hcollide

/-- With more siblings than levels a committed row is taken apart. -/
theorem dividesRow {last : PoseidonDigest}
    (hlast : (rows.map (Poseidon.hashRow constants)).back? = some last)
    (ht : t.Over (.poseidonWith constants)
      fun i => (rows.map (Poseidon.hashRow constants)).getD i last)
    (hcap : t.cap = .ok cap)
    (haccepted : verifyOpening (.poseidonWith constants) row index cap proof = .ok ())
    (hlong : t.height - t.capHeight < proof.siblings.length) :
    DividesRow constants rows t row index proof ∨
      ClimbCollides (.poseidonWith constants) t row index proof := by
  rcases proof with ⟨siblings⟩
  simp only [] at hlong
  obtain ⟨k, hk⟩ : ∃ k, siblings.length = t.height - t.capHeight + (k + 1) :=
    ⟨siblings.length - (t.height - t.capHeight) - 1, by omega⟩
  obtain ⟨front, rest, rfl, hfront⟩ : ∃ front rest, siblings = front ++ rest ∧
      front.length = k + 1 :=
    ⟨_, _, (List.take_append_drop (k + 1) siblings).symm, List.length_take_of_le (by omega)⟩
  rw [List.length_append] at hk
  have hlevel : 0 + rest.length = t.height - t.capHeight := by omega
  rcases ht.accepted_binds hcap haccepted hlevel with ⟨hinside, ⟨hnode, hown⟩ | hcollide⟩
  · -- The climb has arrived at a leaf, which is what its last pair compresses to.
    rcases exists_lastPair (.poseidonWith constants) rest index (Poseidon.hashRow constants row)
      hfront with ⟨left, right, hpair, hleaf⟩
    have hdigest := ht.node_eq (Nat.zero_le _) hinside
    rw [← hnode] at hdigest
    rcases exists_committed (i := index.toNat >>> front.length) hlast with
      ⟨committed, hrow, hhash⟩
    rw [treeNode, hhash] at hnode
    rw [hfront] at hdigest hrow
    refine Or.inl ⟨k, left, right, committed, ?_, hpair,
      hdigest.trans (congrArg Except.ok hleaf), ?_, hrow,
      (Poseidon.hashRow_eq_compress_iff constants).mp (hnode.symm.trans hleaf)⟩
    · rw [List.length_append]
      exact hk
    · intro l hl
      rw [List.length_append] at hl
      have hbeside := ht.node_of_ownSiblings hown (by omega) hinside (by omega : l < rest.length)
      rw [Nat.zero_add, ← Nat.shiftRight_add, hfront] at hbeside
      rw [hbeside]
      have habove : (front ++ rest)[k + 1 + l]? = rest[l]? := by
        rw [← hfront, List.getElem?_append_right (Nat.le_add_right _ _), Nat.add_sub_cancel_left]
      rw [List.getElem?_eq_getElem (by rw [List.length_append]; omega),
        List.getElem?_eq_getElem (by omega), Option.some.injEq] at habove
      exact congrArg Except.ok habove.symm
  · exact Or.inr hcollide

end MerkleTree.Over

variable (constants) (s : Schedule)

/-- The tree over two rows of one element each, which are their own digests. -/
theorem exists_twoRows : ∃ t leaf,
    MerkleTree.ofRows (.poseidonWith constants) s #[#[1], #[Element.two]] .standard = .ok t ∧
    t.Over (.poseidonWith constants) leaf ∧ t.height = 1 ∧ t.capHeight = 0 ∧
    leaf 0 = ⟨#v[1, 0, 0, 0]⟩ ∧ leaf 1 = ⟨#v[Element.two, 0, 0, 0]⟩ := by
  rcases MerkleTree.exists_ofRows (.poseidonWith constants) s
    (by decide : 0 < #[#[1], #[Element.two]].size)
    (Or.inl (by decide : IsTwoPower #[#[1], #[Element.two]].size))
    (by decide : (MerkleConfig.standard).capHeight.toNat ≤ log2Ceil 2) with ⟨t, ht⟩
  have hleaves := ht
  rw [MerkleTree.ofRows_eq] at hleaves
  have hheight := MerkleTree.height_of_ofLeafDigests _ _ hleaves
  rw [Array.size_map] at hheight
  rcases MerkleTree.over_of_ofLeafDigests _ _ hleaves with ⟨last, _, hover, _, hcapHeight⟩
  have hdigest (x : Element) :
      Poseidon.hashRow constants #[x] = ⟨#v[x, 0, 0, 0]⟩ := by
    have hsize : (#[x] : Array Element).size ≤ Poseidon.digestElements := Nat.le_add_left 1 3
    rw [Poseidon.hashRow_of_size_le constants hsize, Poseidon.digestAt,
      PoseidonDigest.mk.injEq]
    rfl
  have hrow {i : Nat} (hi : i < 2) :=
    MerkleTree.getD_map_hashRow (.poseidonWith constants) #[#[1], #[Element.two]] last hi
  exact ⟨t, _, ht, hover, hheight.trans (by decide), hcapHeight,
    (hrow (by decide : 0 < 2)).trans (hdigest 1),
    (hrow (by decide : 1 < 2)).trans (hdigest Element.two)⟩

/-- An accepted opening need not have a sibling for each level below the cap. If
    it has not, it opens an inner node as a row, or opens a committed row as a
    node, or the climb compresses another pair than the tree to the same digest.
    Every inner node up to the cap is opened in this way, by its digest and by its
    two children side by side. -/
theorem accepted_opening_depth {config : MerkleConfig}
    (ht : MerkleTree.ofRows (.poseidonWith constants) s rows config = .ok t) :
    ∃ cap, t.cap = .ok cap ∧
      (∀ (row : Array Element) (index : UInt64) (proof : MerkleProof PoseidonDigest),
        verifyOpening (.poseidonWith constants) row index cap proof = .ok () →
          proof.siblings.length = t.height - t.capHeight ∨
          OpensInnerNode constants t row index proof ∨
          DividesRow constants rows t row index proof ∨
          ClimbCollides (.poseidonWith constants) t row index proof) ∧
      ∀ (l : Nat) (index : UInt64), l < t.height - t.capHeight →
        index.toNat < 2 ^ (t.height - (l + 1)) → ∃ left right proof,
          t.node l (2 * index.toNat) = .ok left ∧ t.node l (2 * index.toNat + 1) = .ok right ∧
          t.node (l + 1) index.toNat = .ok (Poseidon.compress constants left right) ∧
          l + 1 + proof.siblings.length = t.height - t.capHeight ∧
          verifyOpening (.poseidonWith constants)
            (Poseidon.compress constants left right).elements.toArray index cap proof = .ok () ∧
          verifyOpening (.poseidonWith constants)
            (left.elements.toArray ++ right.elements.toArray) index cap proof = .ok () := by
  rw [MerkleTree.ofRows_eq] at ht
  rcases MerkleTree.over_of_ofLeafDigests _ s ht with ⟨last, hlast, hover, _, _⟩
  refine ⟨_, hover.cap_eq, fun row index proof haccepted => ?_, fun l index hl hindex => ?_⟩
  · rcases Nat.lt_trichotomy proof.siblings.length (t.height - t.capHeight) with
      hshort | hequal | hlong
    · rcases hover.opensInnerNode hover.cap_eq haccepted hshort with hinner | hcollide
      · exact Or.inr (Or.inl hinner)
      · exact Or.inr (Or.inr (Or.inr hcollide))
    · exact Or.inl hequal
    · rcases hover.dividesRow hlast hover.cap_eq haccepted hlong with hdivides | hcollide
      · exact Or.inr (Or.inr (Or.inl hdivides))
      · exact Or.inr (Or.inr (Or.inr hcollide))
  · rcases hover.children_eq (by omega : l < t.height) hindex with ⟨hleft, hright, hparent⟩
    rcases hover.opens_at hover.cap_eq hl hindex with ⟨proof, hlength, hopens⟩
    -- Both rows have the digest of the node.
    refine ⟨_, _, proof, hleft, hright, hparent, hlength, hopens _ ?_, hopens _ ?_⟩
    · exact (Poseidon.hashRow_eq_compress_iff constants).mpr
        (Or.inl (Poseidon.nodeRow_digest constants _ _))
    · exact (Poseidon.hashRow_eq_compress_iff constants).mpr
        (Or.inl (Poseidon.nodeRow_children constants _ _))

/-- Over two rows the root is opened as a row, without any sibling. -/
theorem accepted_opening_depth_two : ∃ t cap left right proof,
    MerkleTree.ofRows Hasher.poseidon (.backward 2) #[#[1], #[Element.two]] .standard = .ok t ∧
    t.cap = .ok cap ∧ t.node 0 0 = .ok left ∧ t.node 0 1 = .ok right ∧
    proof.siblings.length ≠ t.height - t.capHeight ∧
    verifyOpening Hasher.poseidon (left.elements.toArray ++ right.elements.toArray) 0 cap proof =
      .ok () ∧
    (OpensInnerNode Poseidon.roundConstants t (left.elements.toArray ++ right.elements.toArray) 0
        proof ∨
      DividesRow Poseidon.roundConstants #[#[1], #[Element.two]] t
        (left.elements.toArray ++ right.elements.toArray) 0 proof ∨
      ClimbCollides Hasher.poseidon t (left.elements.toArray ++ right.elements.toArray) 0
        proof) := by
  rcases exists_twoRows Poseidon.roundConstants (.backward 2) with
    ⟨t, _, ht, _, hheight, hcapHeight, _, _⟩
  rcases accepted_opening_depth Poseidon.roundConstants (.backward 2) ht with
    ⟨cap, hcap, hdepth, hinner⟩
  rcases hinner 0 0 (by omega) (Nat.two_pow_pos _) with
    ⟨left, right, proof, hleft, hright, _, hlength, _, hopens⟩
  have hshort : proof.siblings.length ≠ t.height - t.capHeight := by omega
  exact ⟨t, cap, left, right, proof, ht, hcap, hleft, hright, hshort, hopens,
    (hdepth _ 0 proof hopens).resolve_left hshort⟩

/-- The length of an accepted opening is not determined. Over two rows of one
    element each, the root is opened without any sibling by its two children side
    by side, which make a row of eight elements that nobody committed to. -/
theorem children_open_as_row : ∃ t cap,
    MerkleTree.ofRows Hasher.poseidon .sequential #[#[1], #[Element.two]] .standard = .ok t ∧
    t.cap = .ok cap ∧
    t.node 0 0 = .ok ⟨#v[1, 0, 0, 0]⟩ ∧ t.node 0 1 = .ok ⟨#v[Element.two, 0, 0, 0]⟩ ∧
    verifyOpening Hasher.poseidon #[1, 0, 0, 0, Element.two, 0, 0, 0] 0 cap ⟨[]⟩ = .ok () ∧
    ([] : List PoseidonDigest).length ≠ t.height - t.capHeight := by
  rcases exists_twoRows Poseidon.roundConstants .sequential with
    ⟨t, leaf, ht, hover, hheight, hcapHeight, hleft, hright⟩
  rcases hover.children_eq (by omega : 0 < t.height) (Nat.two_pow_pos _) with ⟨hnode, hnode', _⟩
  have hroot : (0 : UInt64).toNat < 2 ^ (t.height - 1) := Nat.two_pow_pos _
  rcases hover.opens_at hover.cap_eq (by omega) hroot with ⟨⟨siblings⟩, hlength, hopens⟩
  have hnone : siblings = [] := List.eq_nil_of_length_eq_zero (by simp only [] at hlength; omega)
  subst hnone
  have hrow : Poseidon.NodeRow Poseidon.roundConstants (leaf 0) (leaf 1)
      #[1, 0, 0, 0, Element.two, 0, 0, 0] := by
    rw [hleft, hright]
    exact Or.inr ⟨by decide, by decide, by decide, by decide⟩
  refine ⟨t, _, ht, hover.cap_eq, hnode.trans (congrArg Except.ok hleft),
    hnode'.trans (congrArg Except.ok hright),
    hopens _ ((Poseidon.hashRow_eq_compress_iff _).mpr (Or.inl hrow)), ?_⟩
  rw [hheight, hcapHeight]
  decide

end TraceCommit
