import TraceCommit.Hash.Keccak.Sponge
import TraceCommit.Proofs.Merkle.Built

/-!
# The Root by Halves

A tree is built from the leaves upward: neighbours are paired, and the levels
are written into one array behind each other. The same tree can be described
from the root downward: the root over many digests is the compression of the
roots over their two halves. Both descriptions meet in the numbering of the
nodes, since the children of node `i` have the numbers `2 * i` and `2 * i + 1`,
so node `i` of level `l` is the root over block `i` of the leaves, all blocks
having `2 ^ l` leaves.

The levels share one array without touching each other. A level ends no later
than any higher one starts, and none of them starts later than the one below it
has ended.

## Main definitions

* `halvesRoot`: The root over digests, by halves.
* `MerkleTree.LevelsTile`: Every entry of the array belongs to one level.

## Theorems

* `halvesRoot_eq_treeNode`: A node is the root over its block of leaves.
* `MerkleTree.Over.levelsTile`: The levels of a tree share its array.
* `MerkleCap.height_eq`: The height of a cap of `2 ^ c` nodes.
* `built_tree_by_halves`: What the tree over leaf digests is.
-/

namespace TraceCommit

variable {δ : Type}

/-- The root over digests: a single digest is its own root, and the root over
    more of them is the compression of the roots over their two halves. -/
def halvesRoot (h : Hasher δ) (digests : Array δ) : δ :=
  if hmany : 1 < digests.size then
    h.compress (halvesRoot h (digests.extract 0 (digests.size / 2)))
      (halvesRoot h (digests.extract (digests.size / 2) digests.size))
  else digests.getD 0 h.zero
termination_by digests.size
decreasing_by
  · rw [Array.size_extract]
    omega
  · rw [Array.size_extract]
    omega

variable {h : Hasher δ} {leaf : Nat → δ}

/-- Node `k` of level `l` is the root over block `k` of the leaves. -/
theorem halvesRoot_eq_treeNode (l : Nat) : ∀ (k : Nat) (block : Array δ), block.size = 2 ^ l →
    (∀ i < 2 ^ l, block[i]? = some (leaf (2 ^ l * k + i))) →
      halvesRoot h block = treeNode h leaf l k := by
  induction l with
  | zero =>
      intro k block hsize hblock
      have hfirst := hblock 0 (Nat.two_pow_pos 0)
      rw [Nat.pow_zero, Nat.one_mul, Nat.add_zero] at hfirst
      have hone : ¬ 1 < block.size := by
        rw [hsize, Nat.pow_zero]
        exact Nat.lt_irrefl 1
      rw [halvesRoot, dif_neg hone, Array.getD_eq_getD_getElem?, hfirst, Option.getD_some, treeNode]
  | succ l ih =>
      intro k block hsize hblock
      have hpos := Nat.two_pow_pos l
      have hdouble : 2 ^ (l + 1) = 2 * 2 ^ l := Nat.pow_succ'
      have hhalf : block.size / 2 = 2 ^ l := by omega
      have hmany : 1 < block.size := by omega
      rw [halvesRoot, dif_pos hmany, hhalf, treeNode]
      -- The left half is block `2 * k` of the level below, and the right half the next one.
      congr 1
      · refine ih (2 * k) _ ?_ (fun i hi => ?_)
        · rw [Array.size_extract]
          omega
        · have hindex : 2 ^ (l + 1) * k + i = 2 ^ l * (2 * k) + i := by
            rw [hdouble, Nat.mul_left_comm, Nat.mul_assoc]
          rw [Array.getElem?_extract, if_pos (by omega), Nat.zero_add, hblock i (by omega), hindex]
      · refine ih (2 * k + 1) _ ?_ (fun i hi => ?_)
        · rw [Array.size_extract]
          omega
        · have hindex : 2 ^ (l + 1) * k + (2 ^ l + i) = 2 ^ l * (2 * k + 1) + i := by
            rw [hdouble, Nat.mul_add, Nat.mul_left_comm, Nat.mul_assoc, Nat.mul_one, Nat.add_assoc]
          rw [Array.getElem?_extract, if_pos (by omega), hblock (2 ^ l + i) (by omega), hindex]

/-- Whatever lies before the end of a level lies in it or in a level below. -/
theorem exists_level {height j : Nat} (top : Nat) (htop : top ≤ height)
    (hj : j < levelOffset (2 ^ height) top + 2 ^ (height - top)) :
    ∃ l ≤ top, levelOffset (2 ^ height) l ≤ j ∧
      j < levelOffset (2 ^ height) l + 2 ^ (height - l) := by
  induction top with
  | zero => exact ⟨0, Nat.le_refl 0, by rw [levelOffset_zero]; exact Nat.zero_le j, hj⟩
  | succ top ih =>
      by_cases hstart : levelOffset (2 ^ height) (top + 1) ≤ j
      · exact ⟨top + 1, Nat.le_refl _, hstart, hj⟩
      · rw [levelOffset_succ (by omega)] at hstart
        rcases ih (by omega) (by omega) with ⟨l, hl, hlevel⟩
        exact ⟨l, by omega, hlevel⟩

namespace MerkleTree

variable {t : MerkleTree δ}

/-- The levels share the array: each is a stretch of it, and each entry belongs
    to exactly one of them. -/
structure LevelsTile (t : MerkleTree δ) : Prop where
  /-- A level is the stretch behind its offset. -/
  stretch : ∀ l ≤ t.height, levelOffset t.leafCount l + t.leafCount >>> l ≤ t.digests.size ∧
    t.level l = .ok (t.digests.extract (levelOffset t.leafCount l)
      (levelOffset t.leafCount l + t.leafCount >>> l))
  /-- No entry is left out, and none belongs to two levels. -/
  covered : ∀ j < t.digests.size, ∃! l, l ≤ t.height ∧ levelOffset t.leafCount l ≤ j ∧
    j < levelOffset t.leafCount l + t.leafCount >>> l

namespace Over

theorem levelsTile (ht : t.Over h leaf) : t.LevelsTile := by
  refine ⟨fun l hl => ?_, fun j hj => ?_⟩
  · have hend : levelOffset t.leafCount l + t.leafCount >>> l ≤ t.digests.size := by
      rw [ht.count_eq hl, ht.size_eq, ht.leafCount]
      exact level_end_le hl
    refine ⟨hend, ?_⟩
    unfold level
    exact slice_of_le (Nat.le_add_right _ _) hend
  · rw [ht.size_eq, ← levelOffset_add_one] at hj
    rcases exists_level t.height (Nat.le_refl _) (by rwa [Nat.sub_self]) with ⟨l, hl, hstart, hend⟩
    refine ⟨l, ⟨hl, ?_, ?_⟩, ?_⟩
    · rwa [ht.leafCount]
    · rwa [ht.count_eq hl, ht.leafCount]
    · rintro m ⟨hm, hstart', hend'⟩
      rw [ht.count_eq hm] at hend'
      rw [ht.leafCount] at hstart' hend'
      -- The lower of two different levels would end before the entry.
      rcases Nat.lt_trichotomy m l with hlt | heq | hgt
      · have hbefore := levelOffset_add_le hlt hl
        omega
      · exact heq
      · have hbefore := levelOffset_add_le hgt hm
        omega

/-- What is read as the root is the one node of the last level. -/
theorem root_eq (ht : t.Over h leaf) : t.root = .ok (treeNode h leaf t.height 0) := by
  have hpos := Nat.two_pow_pos t.height
  have hlast : t.digests.back? = some (treeNode h leaf t.height 0) := by
    have hindex : 2 * 2 ^ t.height - 1 - 1 = levelOffset t.leafCount t.height + 0 := by
      have hone := levelOffset_add_one t.height
      rw [ht.leafCount]
      omega
    rw [Array.back?_eq_getElem?, ht.size_eq, hindex]
    exact ht.digest_eq (Nat.le_refl _) (Nat.two_pow_pos _)
  unfold root
  rw [hlast]

/-- A node of a level is the compression of two neighbours on the one below. -/
theorem level_succ (ht : t.Over h leaf) {l : Nat} (hl : l < t.height) :
    ∃ below above, t.level l = .ok below ∧ t.level (l + 1) = .ok above ∧
      below.size = 2 ^ (t.height - l) ∧ below.size = 2 * above.size ∧
      ∀ i (hi : i < above.size) (hi' : 2 * i + 1 < below.size),
        above[i] = h.compress below[2 * i] below[2 * i + 1] := by
  refine ⟨_, _, ht.level_eq (Nat.le_of_lt hl), ht.level_eq hl, ?_, ?_, fun i hi hi' => ?_⟩
  · rw [Array.size_ofFn]
  · rw [Array.size_ofFn, Array.size_ofFn, two_pow_level hl]
  · rw [Array.getElem_ofFn, Array.getElem_ofFn, Array.getElem_ofFn, treeNode]

/-- A node of the cap is the root over its block of leaves. -/
theorem treeNode_eq_halvesRoot {leaves : Array δ} {height : Nat} (hsize : leaves.size = 2 ^ height)
    (hleaf : ∀ i < 2 ^ height, leaves[i]? = some (leaf i)) {l k : Nat} (hl : l ≤ height)
    (hk : k < 2 ^ (height - l)) :
    treeNode h leaf l k = halvesRoot h (leaves.extract (k * 2 ^ l) ((k + 1) * 2 ^ l)) := by
  have hpos := Nat.two_pow_pos l
  have hend : (k + 1) * 2 ^ l ≤ 2 ^ height := by
    have hsplit : 2 ^ (height - l) * 2 ^ l = 2 ^ height := by
      rw [← Nat.pow_add, Nat.sub_add_cancel hl]
    rw [← hsplit]
    exact Nat.mul_le_mul_right _ hk
  have hnext : (k + 1) * 2 ^ l = k * 2 ^ l + 2 ^ l := Nat.succ_mul _ _
  refine (halvesRoot_eq_treeNode l k _ ?_ (fun i hi => ?_)).symm
  · rw [Array.size_extract]
    omega
  · rw [Array.getElem?_extract, if_pos (by omega), hleaf _ (by omega), Nat.mul_comm k]

end Over

end MerkleTree

/-- The lowest one bit of a power of two is the only one. -/
theorem trailingZeros_two_pow (c : Nat) : trailingZeros (2 ^ c) = c := by
  have hpos := Nat.two_pow_pos c
  -- All bits below that one are ones of the number before, and no bit is above it.
  have hbit : (2 ^ c ^^^ (2 ^ c - 1)).testBit c = true := by
    rw [Nat.testBit_xor, Nat.testBit_two_pow_self, Nat.testBit_lt_two_pow (by omega),
      Bool.xor_false]
  have hlow : 2 ^ c ≤ 2 ^ c ^^^ (2 ^ c - 1) := Nat.ge_two_pow_of_testBit hbit
  have hhigh : 2 ^ c ^^^ (2 ^ c - 1) < 2 ^ (c + 1) := by
    have hdouble : 2 ^ (c + 1) = 2 * 2 ^ c := Nat.pow_succ'
    exact Nat.xor_lt_two_pow (by omega) (by omega)
  unfold trailingZeros
  rw [if_neg (by omega), Nat.log2_eq_iff (by omega)]
  exact ⟨hlow, hhigh⟩

theorem MerkleCap.height_eq {cap : MerkleCap δ} {c : Nat} (hlength : cap.length = 2 ^ c) :
    cap.height = c := by
  unfold MerkleCap.height
  rw [hlength, trailingZeros_two_pow]

variable (h) (s : Schedule)

/-- The tree over leaf digests. The digests are filled up to the next power of
    two with the last of them. The array holds the levels and nothing else, the
    filled up digests are the lowest level, and each node above is the
    compression of two neighbours. The root is the root by halves, and the cap
    holds the roots by halves over equal blocks. -/
theorem built_tree_by_halves {leaves : Array δ} {config : MerkleConfig} {t : MerkleTree δ}
    (ht : MerkleTree.ofLeafDigests h s leaves config = .ok t) :
    ∃ last height padded cap, leaves.back? = some last ∧
      (∀ m, height ≤ m ↔ leaves.size ≤ 2 ^ m) ∧
      padded = leaves ++ Array.replicate (2 ^ height - leaves.size) last ∧
      padded.size = 2 ^ height ∧ (∀ m, leaves.size = 2 ^ m → padded = leaves) ∧
      t.leafCount = 2 ^ height ∧ t.height = height ∧
      t.digests.size = 2 * 2 ^ height - 1 ∧ t.LevelsTile ∧
      t.level 0 = .ok padded ∧
      (∀ l < height, ∃ below above, t.level l = .ok below ∧ t.level (l + 1) = .ok above ∧
        below.size = 2 ^ (height - l) ∧ below.size = 2 * above.size ∧
        ∀ i (hi : i < above.size) (hi' : 2 * i + 1 < below.size),
          above[i] = h.compress below[2 * i] below[2 * i + 1]) ∧
      t.root = .ok (halvesRoot h padded) ∧
      t.cap = .ok cap ∧ cap.length = 2 ^ config.capHeight.toNat ∧
      cap.height = config.capHeight.toNat ∧
      ∀ k (hk : k < cap.nodes.size), cap.nodes[k] = halvesRoot h
        (padded.extract (k * 2 ^ (height - config.capHeight.toNat))
          ((k + 1) * 2 ^ (height - config.capHeight.toNat))) := by
  rcases MerkleTree.over_of_ofLeafDigests h s ht with ⟨last, hlast, hover, _, hcapHeight⟩
  have hheight := MerkleTree.height_of_ofLeafDigests h s ht
  have hsize := size_paddedLeaves leaves last
  have hleaf := fun i => getElem?_paddedLeaves leaves last (i := i)
  rw [← hheight] at hsize hleaf
  -- The leaves are one block, and the first block of the highest level.
  have hwhole : paddedLeaves leaves last =
      (paddedLeaves leaves last).extract (0 * 2 ^ t.height) ((0 + 1) * 2 ^ t.height) := by
    rw [Nat.zero_mul, Nat.zero_add, Nat.one_mul, ← hsize, Array.extract_size]
  have hcount : t.height - (t.height - t.capHeight) = t.capHeight :=
    Nat.sub_sub_self hover.capHeight
  refine ⟨last, t.height, paddedLeaves leaves last, _, hlast, fun m => ?_, ?_, hsize, ?_,
    hover.leafCount, rfl, hover.size_eq, hover.levelsTile, hover.level_zero hsize hleaf,
    fun l hl => hover.level_succ hl, ?_, hover.cap_eq, ?_, ?_, fun k hk => ?_⟩
  · rw [hheight]
    exact log2Ceil_le_iff
  · rw [hheight]
    rfl
  · intro m hm
    exact paddedLeaves_of_isTwoPower (hm ▸ isTwoPower_two_pow m) last
  · rw [hover.root_eq, MerkleTree.Over.treeNode_eq_halvesRoot hsize hleaf (Nat.le_refl _)
      (Nat.two_pow_pos _), ← hwhole]
  · rw [MerkleCap.length, Array.size_ofFn, hcapHeight]
  · refine MerkleCap.height_eq ?_
    rw [MerkleCap.length, Array.size_ofFn, hcapHeight]
  · rw [Array.size_ofFn] at hk
    rw [← hcapHeight, Array.getElem_ofFn, MerkleTree.Over.treeNode_eq_halvesRoot hsize hleaf
      (Nat.sub_le _ _) (by rwa [hcount])]

/-- Three digests, the last of them standing for a fourth, with a cap of two
    nodes. -/
theorem built_tree_by_halves_three : ∃ t padded cap,
    MerkleTree.ofLeafDigests (Hasher.keccak 32) (.backward 2)
      #[(Hasher.keccak 32).hashRow #[1], (Hasher.keccak 32).hashRow #[0],
        (Hasher.keccak 32).hashRow #[Element.two]] ⟨1, .duplicateLast⟩ = .ok t ∧
    padded.size = 4 ∧ t.height = 2 ∧ t.digests.size = 7 ∧ t.LevelsTile ∧
    t.level 0 = .ok padded ∧ t.root = .ok (halvesRoot (Hasher.keccak 32) padded) ∧
    t.cap = .ok cap ∧ cap.length = 2 ∧ cap.height = 1 := by
  rcases MerkleTree.exists_ofLeafDigests (Hasher.keccak 32) (.backward 2)
    (by decide : 0 < #[(Hasher.keccak 32).hashRow #[1], (Hasher.keccak 32).hashRow #[0],
      (Hasher.keccak 32).hashRow #[Element.two]].size)
    (Or.inr rfl : _ ∨ (MerkleConfig.mk 1 .duplicateLast).padding = .duplicateLast)
    (by decide : (1 : UInt64).toNat ≤ log2Ceil 3) with ⟨t, ht⟩
  rcases built_tree_by_halves _ _ ht with ⟨last, height, padded, cap, _, hleast, _, hsize, _, _,
    hheight, hdigests, htile, hlevel, _, hroot, hcap, hlength, hcapHeight, _⟩
  have htwo : height = 2 := by
    have hle := (hleast 2).mpr (by decide : 3 ≤ 2 ^ 2)
    have hlt : ¬ height ≤ 1 := fun hone => absurd ((hleast 1).mp hone) (by decide : ¬ 3 ≤ 2 ^ 1)
    omega
  subst htwo
  exact ⟨t, padded, cap, ht, hsize, hheight, hdigests, htile, hlevel, hroot, hcap, hlength,
    hcapHeight⟩

end TraceCommit
