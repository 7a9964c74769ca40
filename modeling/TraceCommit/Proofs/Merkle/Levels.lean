import TraceCommit.Merkle.Tree
import TraceCommit.Proofs.Parallel.Tasks
import TraceCommit.Proofs.Word.Bits

/-!
# The Levels of a Tree

Which digest stands where in the flat array of a tree. The nodes are described
without the array, by a recursion on the level: a node above the leaves is the
compression of its two children. Building keeps an invariant, that the array has
its full length and holds the levels built so far one right behind another, and
each level that is filled keeps it for one level more. Every place that is asked
for on the way is inside the array, and every level has twice as many nodes as the
one above it, so building is never broken off.

What is known about a tree once it is built is `MerkleTree.Over`, and from there
on nothing depends on how it was built: its levels, its nodes and its cap are
those of the recursion.

## Main definitions

* `treeNode`: The node with a number on a level.
* `HoldsLevels`: The array holds the lowest levels.
* `MerkleTree.Over`: The tree holds all levels over given leaf digests.

## Theorems

* `compressLevel_eq`: The parents of twice as many nodes.
* `HoldsLevels.step`: A level is filled, and the invariant is kept.
* `MerkleTree.exists_buildLevels`: So an array is built, and it holds all levels.
* `MerkleTree.Over.level_eq`, `MerkleTree.Over.node_eq`, `MerkleTree.Over.cap_eq`:
  What is read from a tree.
-/

namespace TraceCommit

variable {δ : Type}

/-- The node with a number on a level over leaf digests. -/
def treeNode (h : Hasher δ) (leaf : Nat → δ) : (level : Nat) → Nat → δ
  | 0, i => leaf i
  | level + 1, i =>
    h.compress (treeNode h leaf level (2 * i)) (treeNode h leaf level (2 * i + 1))

theorem two_pow_shiftRight {height l : Nat} (hl : l ≤ height) :
    2 ^ height >>> l = 2 ^ (height - l) := by
  rw [Nat.shiftRight_eq_div_pow, Nat.pow_div hl Nat.two_pos]

/-- Dropping `l` bits leaves as many numbers as there are with `l` bits fewer. -/
theorem shiftRight_lt_two_pow_iff {i l m n : Nat} (hn : m + l = n) :
    i >>> l < 2 ^ m ↔ i < 2 ^ n := by
  rw [← hn, Nat.pow_add, Nat.shiftRight_eq_div_pow, Nat.div_lt_iff_lt_mul (Nat.two_pow_pos l)]

/-- Below the root a level has twice as many nodes as the next one. -/
theorem two_pow_level {height l : Nat} (hl : l < height) :
    2 ^ (height - l) = 2 * 2 ^ (height - (l + 1)) := by
  rw [← Nat.pow_succ']
  congr 1
  omega

theorem levelOffset_zero (leafCount : Nat) : levelOffset leafCount 0 = 0 :=
  Nat.sub_self _

/-- A level starts right behind the one below it. -/
theorem levelOffset_succ {height l : Nat} (hl : l < height) :
    levelOffset (2 ^ height) (l + 1) = levelOffset (2 ^ height) l + 2 ^ (height - l) := by
  have hhalf := two_pow_level hl
  have hle : 2 ^ (height - l) ≤ 2 ^ height := Nat.pow_le_pow_right Nat.two_pos (Nat.sub_le _ _)
  unfold levelOffset
  rw [two_pow_shiftRight (by omega), two_pow_shiftRight (by omega)]
  omega

/-- The last level is a single node, the one behind which nothing follows. -/
theorem levelOffset_add_one (height : Nat) :
    levelOffset (2 ^ height) height + 1 = 2 * 2 ^ height - 1 := by
  have hpos := Nat.two_pow_pos height
  unfold levelOffset
  rw [two_pow_shiftRight (Nat.le_refl height), Nat.sub_self, Nat.pow_zero]
  omega

/-- A level ends inside the array. -/
theorem level_end_le {height l : Nat} (hl : l ≤ height) :
    levelOffset (2 ^ height) l + 2 ^ (height - l) ≤ 2 * 2 ^ height - 1 := by
  have hpos := Nat.two_pow_pos (height - l)
  have hle : 2 ^ (height - l) ≤ 2 ^ height := Nat.pow_le_pow_right Nat.two_pos (Nat.sub_le _ _)
  unfold levelOffset
  rw [two_pow_shiftRight hl]
  omega

/-- A level ends no later than a higher one starts. -/
theorem levelOffset_add_le {height l m : Nat} (hlm : l < m) (hm : m ≤ height) :
    levelOffset (2 ^ height) l + 2 ^ (height - l) ≤ levelOffset (2 ^ height) m := by
  have hhalf := two_pow_level (by omega : l < height)
  have hle : 2 ^ (height - m) ≤ 2 ^ (height - (l + 1)) :=
    Nat.pow_le_pow_right Nat.two_pos (by omega)
  have hwhole : 2 ^ (height - l) ≤ 2 ^ height := Nat.pow_le_pow_right Nat.two_pos (Nat.sub_le _ _)
  unfold levelOffset
  rw [two_pow_shiftRight (by omega), two_pow_shiftRight hm]
  omega

variable (h : Hasher δ) (s : Schedule) (leaf : Nat → δ)

/-- The parents are replaced in any order, each by what the two nodes below it
    compress to. These nodes are there. -/
theorem compressLevel_eq {children parents : Array δ} (hsizes : children.size = 2 * parents.size)
    (node : Nat → δ)
    (hnode : ∀ j < children.size, children[j]? = some (node j)) :
    compressLevel h s children parents =
      .ok (parents.mapIdx fun i _ => h.compress (node (2 * i)) (node (2 * i + 1))) := by
  unfold compressLevel
  rw [if_neg (not_not_intro hsizes)]
  refine s.update_eq_pure (m := Except Violation) _ _ parents (fun i hi => ?_)
  rw [itemAt_eq_ok_iff.mpr (hnode (2 * i) (by omega)), ok_bind,
    itemAt_eq_ok_iff.mpr (hnode (2 * i + 1) (by omega)), ok_bind]

/-- The array has its full length and holds the levels up to `top`. -/
structure HoldsLevels (height top : Nat) (digests : Array δ) : Prop where
  /-- It has room for all levels. -/
  size : digests.size = 2 * 2 ^ height - 1
  /-- The nodes of each stand behind its offset. -/
  node : ∀ l ≤ top, ∀ i < 2 ^ (height - l),
    digests[levelOffset (2 ^ height) l + i]? = some (treeNode h leaf l i)

variable {h leaf} {height top : Nat} {digests : Array δ}

/-- The leaves, in an array of the full length, are the lowest level. -/
theorem holdsLevels_leaves {leaves : Array δ} (hsize : leaves.size = 2 ^ height)
    (hleaf : ∀ i < 2 ^ height, leaves[i]? = some (leaf i)) (last : δ) :
    HoldsLevels h leaf height 0
      (leaves ++ Array.replicate (2 * leaves.size - 1 - leaves.size) last) := by
  have hpos := Nat.two_pow_pos height
  refine ⟨?_, fun l hl i hi => ?_⟩
  · rw [Array.size_append, Array.size_replicate, hsize]
    omega
  · obtain rfl : l = 0 := Nat.le_zero.mp hl
    rw [Nat.sub_zero] at hi
    rw [levelOffset_zero, Nat.zero_add, Array.getElem?_append_left (by omega)]
    exact hleaf i hi

section Step

variable (hd : HoldsLevels h leaf height top digests) (htop : top < height)

include hd htop

/-- The array is split where the next level starts, and has that level behind. -/
theorem HoldsLevels.size_split :
    (digests.extract 0 (levelOffset (2 ^ height) (top + 1))).size =
        levelOffset (2 ^ height) (top + 1) ∧
      2 ^ (height - (top + 1)) ≤
        (digests.extract (levelOffset (2 ^ height) (top + 1))).size := by
  have hend := level_end_le (show top + 1 ≤ height from htop)
  have hsize := hd.size
  have hparents := Nat.two_pow_pos (height - (top + 1))
  rw [Array.size_extract, Array.size_extract]
  omega

/-- The nodes of the highest level, at the end of what is in front of the next one. -/
theorem HoldsLevels.children_getElem? {i : Nat} (hi : i < 2 ^ (height - top)) :
    ((digests.extract 0 (levelOffset (2 ^ height) (top + 1))).extract
      (levelOffset (2 ^ height) top) (levelOffset (2 ^ height) (top + 1)))[i]? =
        some (treeNode h leaf top i) := by
  have hnext := levelOffset_succ htop
  have hsplit := (hd.size_split htop).1
  rw [Array.size_extract] at hsplit
  rw [Array.getElem?_extract, Array.size_extract, if_pos (by omega), Array.getElem?_extract,
    if_pos (by omega), Nat.zero_add]
  exact hd.node top (Nat.le_refl top) i hi

/-- What is in front of the next level and what is behind it stays, and the nodes of
    the level are made out of those below it. -/
theorem HoldsLevels.buildLevel_eq :
    MerkleTree.buildLevel h s (2 ^ height) digests (top + 1) = .ok
      (digests.extract 0 (levelOffset (2 ^ height) (top + 1)) ++
        ((digests.extract (levelOffset (2 ^ height) (top + 1))).extract 0
          (2 ^ (height - (top + 1)))).mapIdx (fun i _ => treeNode h leaf (top + 1) i) ++
        (digests.extract (levelOffset (2 ^ height) (top + 1))).extract
          (2 ^ (height - (top + 1)))) := by
  have hnext := levelOffset_succ htop
  have hhalf := two_pow_level htop
  rcases hd.size_split htop with ⟨hbelow, habove⟩
  have hplace : levelOffset (2 ^ height) (top + 1) ≤ digests.size := by
    rw [Array.size_extract] at hbelow
    omega
  have hsizes : ((digests.extract 0 (levelOffset (2 ^ height) (top + 1))).extract
      (levelOffset (2 ^ height) top) (levelOffset (2 ^ height) (top + 1))).size =
        2 * ((digests.extract (levelOffset (2 ^ height) (top + 1))).extract 0
          (2 ^ (height - (top + 1)))).size := by
    rw [Array.size_extract, hbelow, Array.size_extract]
    omega
  have hparents := compressLevel_eq h (s.branch (top + 1)) hsizes (treeNode h leaf top)
    (fun j hj => by
      rw [Array.size_extract, hbelow] at hj
      exact hd.children_getElem? htop (by omega))
  unfold MerkleTree.buildLevel
  rw [splitAt_of_le hplace, ok_bind]
  simp only [Nat.add_sub_cancel, hbelow]
  rw [slice_of_le (by omega) (by omega), ok_bind, two_pow_shiftRight (by omega),
    slice_of_le (Nat.zero_le _) habove, ok_bind, hparents, ok_bind]
  rfl

/-- The next level is filled, which keeps the invariant for one level more. -/
theorem HoldsLevels.step :
    ∃ digests', MerkleTree.buildLevel h s (2 ^ height) digests (top + 1) = .ok digests' ∧
      HoldsLevels h leaf height (top + 1) digests' := by
  have hparents := Nat.two_pow_pos (height - (top + 1))
  rcases hd.size_split htop with ⟨hbelow, habove⟩
  refine ⟨_, hd.buildLevel_eq s htop, ?_, fun l hl i hi => ?_⟩
  · rw [← hd.size]
    simp only [Array.size_append, Array.size_mapIdx, Array.size_extract] at hbelow habove ⊢
    omega
  · rw [Array.append_assoc]
    rcases Nat.lt_or_ge top l with hnew | hold
    · -- The new level is behind the place where the array was split.
      obtain rfl : l = top + 1 := by omega
      have hplace : i < ((digests.extract (levelOffset (2 ^ height) (top + 1))).extract 0
          (2 ^ (height - (top + 1)))).size := by
        rw [Array.size_extract]
        omega
      rw [Array.getElem?_append_right (by omega), hbelow, Nat.add_sub_cancel_left,
        Array.getElem?_append_left (by rwa [Array.size_mapIdx]), Array.getElem?_mapIdx,
        Array.getElem?_eq_getElem hplace]
      rfl
    · -- The levels below are in front of it.
      have hfront := levelOffset_add_le (by omega : l < top + 1) htop
      rw [Array.getElem?_append_left (by omega), Array.getElem?_extract, if_pos (by
        rw [Array.size_extract] at hbelow
        omega), Nat.zero_add]
      exact hd.node l hold i hi

end Step

namespace MerkleTree

/-- An array is built over a power of two of leaves, and it holds all levels. -/
theorem exists_buildLevels {leaves : Array δ} (hsize : leaves.size = 2 ^ height)
    (hleaf : ∀ i < 2 ^ height, leaves[i]? = some (leaf i)) (last : δ) :
    ∃ digests, buildLevels h s leaves last height = .ok digests ∧
      HoldsLevels h leaf height height digests := by
  have hleaves := holdsLevels_leaves (h := h) hsize hleaf last
  -- After the levels up to `top` have been filled the array holds those.
  have hbuilt : ∀ top ≤ height, ∃ digests, (List.range' 1 top).foldlM
      (buildLevel h s leaves.size)
      (leaves ++ Array.replicate (2 * leaves.size - 1 - leaves.size) last) = .ok digests ∧
        HoldsLevels h leaf height top digests := by
    intro top
    induction top with
    | zero =>
        intro _
        exact ⟨_, rfl, hleaves⟩
    | succ top ih =>
        intro htop
        rcases ih (by omega) with ⟨digests, hrun, hholds⟩
        rcases hholds.step s htop with ⟨digests', hlevel, hholds'⟩
        refine ⟨digests', ?_, hholds'⟩
        rw [List.range'_1_concat, List.foldlM_append, hrun, ok_bind, List.foldlM_cons,
          Nat.add_comm 1 top, hsize, hlevel, ok_bind]
        rfl
  exact hbuilt height (Nat.le_refl height)

/-- The tree holds all levels over the leaf digests, and its numbers describe it:
    those of its leaves that were committed to come first, and its cap is no
    lower than the leaves. -/
structure Over (h : Hasher δ) (leaf : Nat → δ) (t : MerkleTree δ) : Prop where
  /-- The leaves are a power of two. -/
  leafCount : t.leafCount = 2 ^ t.height
  /-- The array holds all levels. -/
  digests : HoldsLevels h leaf t.height t.height t.digests
  /-- No more leaves are committed to than there are. -/
  committed : t.committed ≤ t.leafCount
  /-- The cap is one of the levels. -/
  capHeight : t.capHeight ≤ t.height

namespace Over

variable {t : MerkleTree δ} {l : Nat}

theorem count_eq (ht : t.Over h leaf) (hl : l ≤ t.height) :
    t.leafCount >>> l = 2 ^ (t.height - l) := by
  rw [ht.leafCount, two_pow_shiftRight hl]

theorem digest_eq (ht : t.Over h leaf) (hl : l ≤ t.height) {i : Nat}
    (hi : i < 2 ^ (t.height - l)) :
    t.digests[levelOffset t.leafCount l + i]? = some (treeNode h leaf l i) := by
  rw [ht.leafCount]
  exact ht.digests.node l hl i hi

/-- What is read as a node is the node. -/
theorem node_eq (ht : t.Over h leaf) (hl : l ≤ t.height) {i : Nat}
    (hi : i < 2 ^ (t.height - l)) : t.node l i = .ok (treeNode h leaf l i) := by
  unfold node
  rw [ht.count_eq hl, if_pos hi]
  exact itemAt_eq_ok_iff.mpr (ht.digest_eq hl hi)

theorem size_eq (ht : t.Over h leaf) : t.digests.size = 2 * 2 ^ t.height - 1 :=
  ht.digests.size

/-- What is read as a level is the level. -/
theorem level_eq (ht : t.Over h leaf) (hl : l ≤ t.height) :
    t.level l = .ok (Array.ofFn fun i : Fin (2 ^ (t.height - l)) => treeNode h leaf l i) := by
  have hroom : levelOffset t.leafCount l + 2 ^ (t.height - l) ≤ t.digests.size := by
    rw [ht.size_eq, ht.leafCount]
    exact level_end_le hl
  unfold level
  simp only [ht.count_eq hl]
  rw [slice_of_le (Nat.le_add_right _ _) hroom, Except.ok.injEq]
  refine Array.ext ?_ (fun i h1 h2 => ?_)
  · rw [Array.size_extract, Array.size_ofFn, Nat.min_eq_left hroom, Nat.add_sub_cancel_left]
  · rw [Array.size_ofFn] at h2
    have hdigest := ht.digest_eq hl h2
    rw [Array.getElem?_eq_getElem (by omega), Option.some.injEq] at hdigest
    rw [Array.getElem_extract, Array.getElem_ofFn, hdigest]

/-- The lowest level is the leaves. -/
theorem level_zero (ht : t.Over h leaf) {leaves : Array δ} (hsize : leaves.size = 2 ^ t.height)
    (hleaf : ∀ i < 2 ^ t.height, leaves[i]? = some (leaf i)) : t.level 0 = .ok leaves := by
  rw [ht.level_eq (Nat.zero_le _), Except.ok.injEq]
  refine Array.ext ?_ (fun i h1 h2 => ?_)
  · rw [Array.size_ofFn, hsize, Nat.sub_zero]
  · have hi := hleaf i (by rwa [hsize] at h2)
    rw [Array.getElem?_eq_getElem h2, Option.some.injEq] at hi
    rw [Array.getElem_ofFn, treeNode, hi]

/-- The cap is the level that has `2 ^ capHeight` nodes. -/
theorem cap_eq (ht : t.Over h leaf) :
    t.cap = .ok ⟨Array.ofFn fun i : Fin (2 ^ t.capHeight) =>
      treeNode h leaf (t.height - t.capHeight) i⟩ := by
  have hcount : t.height - (t.height - t.capHeight) = t.capHeight :=
    Nat.sub_sub_self ht.capHeight
  unfold cap
  rw [ht.level_eq (Nat.sub_le _ _), hcount]
  rfl

/-- A cap of height zero is the node at the top. -/
theorem cap_eq_of_zero (ht : t.Over h leaf) (hzero : t.capHeight = 0) :
    t.cap = .ok ⟨#[treeNode h leaf t.height 0]⟩ := by
  rw [ht.cap_eq, Except.ok.injEq, MerkleCap.mk.injEq]
  refine Array.ext ?_ (fun i h1 h2 => ?_)
  · simp [hzero]
  · obtain rfl : i = 0 := by simpa using h2
    simp [hzero]

end Over

end MerkleTree

end TraceCommit
