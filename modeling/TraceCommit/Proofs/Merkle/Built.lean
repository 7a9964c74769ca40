import TraceCommit.Proofs.Merkle.Levels

/-!
# The Trees That Are Built

When leaf digests are committed to, and to which tree. Whatever their number,
the leaves are brought to the next power of two by repeating the last one, which
changes nothing if they are one already; a power of two is the only number that
every padding policy takes. So leaf `i` of the tree is digest `i`, or the last
one behind the end.

## Main definitions

* `paddedLeaves`: The leaves of a tree over leaf digests.

## Theorems

* `MerkleTree.ofLeafDigests_eq_ok_iff`: The trees that are built, and when.
* `MerkleTree.over_of_ofLeafDigests`: Such a tree holds all levels.
* `MerkleTree.exists_two_pow`: The tree over a power of two of leaf digests.
* `MerkleTree.ofLeafDigests_of_cap_lt`: What can be wrong with one.
* `MerkleTree.ofRows_eq`: Committing to rows is committing to their digests.
* `MerkleTree.exists_ofRows`: Rows that a tree is built over.
-/

namespace TraceCommit

variable {δ : Type}

/-- The digests, with the last one repeated up to the next power of two. -/
def paddedLeaves (leaves : Array δ) (last : δ) : Array δ :=
  leaves ++ Array.replicate (2 ^ log2Ceil leaves.size - leaves.size) last

theorem size_paddedLeaves (leaves : Array δ) (last : δ) :
    (paddedLeaves leaves last).size = 2 ^ log2Ceil leaves.size := by
  have hle := log2Ceil_le_iff.mp (Nat.le_refl (log2Ceil leaves.size))
  unfold paddedLeaves
  rw [Array.size_append, Array.size_replicate]
  omega

/-- Behind the end stands the last digest. -/
theorem getElem?_paddedLeaves (leaves : Array δ) (last : δ) {i : Nat}
    (hi : i < 2 ^ log2Ceil leaves.size) :
    (paddedLeaves leaves last)[i]? = some (leaves.getD i last) := by
  unfold paddedLeaves
  by_cases hlt : i < leaves.size
  · rw [Array.getElem?_append_left hlt, Array.getElem?_eq_getElem hlt,
      ← Array.getElem_eq_getD (h := hlt) last]
  · rw [Array.getElem?_append_right (by omega), Array.getElem?_replicate, if_pos (by omega),
      Array.getD_eq_getD_getElem?, Array.getElem?_eq_none (by omega), Option.getD_none]

/-- A power of two of leaves is not padded. -/
theorem paddedLeaves_of_isTwoPower {leaves : Array δ} (hsize : IsTwoPower leaves.size) (last : δ) :
    paddedLeaves leaves last = leaves := by
  rcases isTwoPower_iff.mp hsize with ⟨k, hk⟩
  unfold paddedLeaves
  rw [hk, log2Ceil_two_pow, Nat.sub_self, Array.replicate_zero, Array.append_empty]

namespace MerkleTree

variable {leaves padded : Array δ} {padding : PaddingPolicy}

theorem back?_of_pos (hleaves : 0 < leaves.size) :
    leaves.back? = some leaves[leaves.size - 1] := by
  rw [Array.back?_eq_getElem?, Array.getElem?_eq_getElem]

/-- The leaves that are accepted, and what they are brought to. -/
theorem padLeaves_eq_ok_iff {last : δ} : padLeaves leaves last padding = .ok padded ↔
    (IsTwoPower leaves.size ∨ padding = .duplicateLast) ∧ padded = paddedLeaves leaves last := by
  unfold padLeaves
  by_cases hsize : IsTwoPower leaves.size
  · rw [if_pos hsize, paddedLeaves_of_isTwoPower hsize, Except.ok.injEq]
    exact ⟨fun heq => ⟨Or.inl hsize, heq.symm⟩, fun heq => heq.2.symm⟩
  · rw [if_neg hsize]
    cases padding with
    | reject => simp only [reduceCtorEq, hsize, or_self, false_and]
    | duplicateLast =>
        rw [Except.ok.injEq, Nat.one_shiftLeft]
        exact ⟨fun heq => ⟨Or.inr rfl, heq.symm⟩, fun heq => heq.2.symm⟩

variable (h : Hasher δ) (s : Schedule)

/-- The levels over padded leaves, and an array that holds them. -/
theorem exists_buildLevels_paddedLeaves (leaves : Array δ) (last : δ) :
    ∃ digests, buildLevels h s (paddedLeaves leaves last) last (log2Ceil leaves.size) =
        .ok digests ∧
      HoldsLevels h (fun i => leaves.getD i last) (log2Ceil leaves.size)
        (log2Ceil leaves.size) digests :=
  exists_buildLevels s (size_paddedLeaves leaves last)
    (fun _ hi => getElem?_paddedLeaves leaves last hi) last

/-- The trees that are built, and when: the number of leaves suits the padding
    policy, and the cap is no lower than the leaves. -/
theorem ofLeafDigests_eq_ok_iff {config : MerkleConfig} {t : MerkleTree δ} :
    ofLeafDigests h s leaves config = .ok t ↔
      (IsTwoPower leaves.size ∨ config.padding = .duplicateLast) ∧
        config.capHeight.toNat ≤ log2Ceil leaves.size ∧
        ∃ last digests, leaves.back? = some last ∧
          buildLevels h s (paddedLeaves leaves last) last (log2Ceil leaves.size) = .ok digests ∧
          t = ⟨digests, 2 ^ log2Ceil leaves.size, leaves.size, config.capHeight.toNat⟩ := by
  unfold ofLeafDigests
  cases hlast : leaves.back? with
  | none => simp only [reduceCtorEq, false_and, exists_false, and_false]
  | some last =>
      simp only [Option.some.injEq]
      cases hpad : padLeaves leaves last config.padding with
      | error e =>
          -- What is refused here is refused by the padding.
          constructor
          · intro he
            cases he
          · rintro ⟨hpadding, _⟩
            rw [padLeaves_eq_ok_iff.mpr ⟨hpadding, rfl⟩] at hpad
            cases hpad
      | ok padded =>
          rcases padLeaves_eq_ok_iff.mp hpad with ⟨hpadding, rfl⟩
          rcases exists_buildLevels_paddedLeaves h s leaves last with ⟨digests, hdigests, -⟩
          rw [ok_bind, size_paddedLeaves, log2Strict_two_pow]
          show (if log2Ceil leaves.size < config.capHeight.toNat then _ else _) = _ ↔ _
          by_cases hcap : config.capHeight.toNat ≤ log2Ceil leaves.size
          · rw [if_neg (by omega), hdigests]
            show Except.ok _ = _ ↔ _
            rw [Except.ok.injEq, and_iff_right hpadding, and_iff_right hcap]
            constructor
            · rintro rfl
              exact ⟨last, digests, rfl, hdigests, rfl⟩
            · rintro ⟨last', digests', rfl, hdigests', rfl⟩
              rw [Except.ok.inj (hdigests.symm.trans hdigests')]
          · rw [if_pos (by omega)]
            simp only [hcap, false_and, and_false, iff_false]
            intro he
            cases he

theorem height_of_ofLeafDigests {config : MerkleConfig} {t : MerkleTree δ}
    (ht : ofLeafDigests h s leaves config = .ok t) : t.height = log2Ceil leaves.size := by
  rcases (ofLeafDigests_eq_ok_iff h s).mp ht with ⟨_, _, last, digests, _, _, rfl⟩
  exact Nat.log2_two_pow

/-- A tree is built over any leaf digests at all, if their number suits the
    padding policy and the cap is no lower than the leaves. -/
theorem exists_ofLeafDigests {config : MerkleConfig} (hleaves : 0 < leaves.size)
    (hpadding : IsTwoPower leaves.size ∨ config.padding = .duplicateLast)
    (hcap : config.capHeight.toNat ≤ log2Ceil leaves.size) :
    ∃ t, ofLeafDigests h s leaves config = .ok t := by
  rcases exists_buildLevels_paddedLeaves h s leaves leaves[leaves.size - 1] with
    ⟨digests, hdigests, -⟩
  exact ⟨_, (ofLeafDigests_eq_ok_iff h s).mpr
    ⟨hpadding, hcap, _, digests, back?_of_pos hleaves, hdigests, rfl⟩⟩

/-- A tree that is built holds all levels, and leaf `i` of it is digest `i` or,
    behind the end, the last one. -/
theorem over_of_ofLeafDigests {config : MerkleConfig} {t : MerkleTree δ}
    (ht : ofLeafDigests h s leaves config = .ok t) :
    ∃ last, leaves.back? = some last ∧ t.Over h (fun i => leaves.getD i last) ∧
      t.committed = leaves.size ∧ t.capHeight = config.capHeight.toNat := by
  have hheight := height_of_ofLeafDigests h s ht
  rcases (ofLeafDigests_eq_ok_iff h s).mp ht with ⟨_, hcap, last, digests, hlast, hbuilt, rfl⟩
  rcases exists_buildLevels_paddedLeaves h s leaves last with ⟨digests', hbuilt', hlevels⟩
  obtain rfl : digests = digests' := Except.ok.inj (hbuilt.symm.trans hbuilt')
  refine ⟨last, hlast, ⟨?_, ?_, ?_, ?_⟩, rfl, rfl⟩
  · rw [hheight]
  · rw [hheight]
    exact hlevels
  · exact log2Ceil_le_iff.mp (Nat.le_refl _)
  · rwa [hheight]

/-- The tree over a power of two of leaf digests has them for its first level. -/
theorem exists_two_pow {height : Nat} (hsize : leaves.size = 2 ^ height) {config : MerkleConfig}
    (hcap : config.capHeight.toNat ≤ height) :
    ∃ t, ofLeafDigests h s leaves config = .ok t ∧ t.leafCount = 2 ^ height ∧
      t.level 0 = .ok leaves := by
  have hlog : log2Ceil leaves.size = height := by rw [hsize, log2Ceil_two_pow]
  have hpos : 0 < leaves.size := by
    rw [hsize]
    exact Nat.two_pow_pos height
  rcases exists_ofLeafDigests h s hpos (Or.inl (hsize ▸ isTwoPower_two_pow height))
    (by rwa [hlog]) with ⟨t, ht⟩
  rcases over_of_ofLeafDigests h s ht with ⟨last, _, hover, _, _⟩
  have hheight : t.height = height := by rw [height_of_ofLeafDigests h s ht, hlog]
  refine ⟨t, ht, by rw [hover.leafCount, hheight], hover.level_zero (by rwa [hheight]) ?_⟩
  intro i hi
  rw [hheight, ← hsize] at hi
  rw [Array.getElem?_eq_getElem hi, ← Array.getElem_eq_getD (h := hi) last]

/-- The only thing that can be wrong with a power of two of leaf digests is a cap
    that would lie below them. -/
theorem ofLeafDigests_of_cap_lt {height : Nat} (hsize : leaves.size = 2 ^ height)
    {config : MerkleConfig} (hcap : height < config.capHeight.toNat) :
    ofLeafDigests h s leaves config = .error (.capHeightTooLarge config.capHeight height) := by
  have hpower : IsTwoPower leaves.size := hsize ▸ isTwoPower_two_pow height
  have hpos : 0 < leaves.size := by
    rw [hsize]
    exact Nat.two_pow_pos height
  have hpad (last : δ) : padLeaves leaves last config.padding = .ok leaves :=
    padLeaves_eq_ok_iff.mpr ⟨Or.inl hpower, (paddedLeaves_of_isTwoPower hpower last).symm⟩
  obtain ⟨last, hlast⟩ : ∃ last, leaves.back? = some last := ⟨_, back?_of_pos hpos⟩
  unfold ofLeafDigests
  simp only [hlast]
  rw [hpad, ok_bind, hsize, log2Strict_two_pow]
  exact if_pos hcap

/-- Rows are hashed in any order, and what is committed to are their digests in
    the order of the rows. -/
theorem ofRows_eq (rows : Array (Array Element)) (config : MerkleConfig) :
    ofRows h s rows config = ofLeafDigests h s (rows.map h.hashRow) config := by
  have hdigests : (hashRows h s rows.size fun i => rows[i]?) = .ok (rows.map h.hashRow) := by
    unfold hashRows
    refine s.collect_map_eq_pure (m := Except Violation) _ rows #[] h.hashRow (fun i hi => ?_)
    simp only [Array.getElem?_eq_getElem hi]
    rfl
  unfold ofRows
  rw [hdigests]
  rfl

/-- Leaf `i` of that tree is the digest of row `i`. -/
theorem getD_map_hashRow (rows : Array (Array Element)) (last : δ) {i : Nat} (hi : i < rows.size) :
    (rows.map h.hashRow).getD i last = h.hashRow rows[i] := by
  rw [← Array.getElem_eq_getD (h := by rwa [Array.size_map]) last, Array.getElem_map]

/-- A tree is built over any rows at all, if their number suits the padding
    policy and the cap is no lower than the leaves. -/
theorem exists_ofRows {rows : Array (Array Element)} {config : MerkleConfig}
    (hrows : 0 < rows.size) (hpadding : IsTwoPower rows.size ∨ config.padding = .duplicateLast)
    (hcap : config.capHeight.toNat ≤ log2Ceil rows.size) :
    ∃ t, ofRows h s rows config = .ok t := by
  have hsize : (rows.map h.hashRow).size = rows.size := Array.size_map
  rw [ofRows_eq]
  rw [← hsize] at hrows hpadding hcap
  exact exists_ofLeafDigests h s hrows hpadding hcap

end MerkleTree

end TraceCommit
