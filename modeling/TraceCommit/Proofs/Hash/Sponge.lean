import TraceCommit.Hash.Poseidon.Sponge

/-!
# Rows that Have the Digest of a Node

Rows and nodes share one kind of digest, and nothing in a digest tells which of
them it belongs to. A row of up to four elements is its own digest, so it may be
the digest of a node. A row of up to eight elements is absorbed by one permutation
of a state that was zero, which is what two digests are compressed by, so it may
be the two children of a node side by side. Any other row with the digest of a
node is one that the sponge maps to the same place by accident.

## Main definitions

* `Poseidon.digestAt`: Four elements of a row.
* `Poseidon.NodeRow`: A row that is a node's digest, or its two children.
* `Poseidon.HashCollision`: Another row with the digest of a node.

## Theorems

* `Poseidon.hash_of_size_le_rate`: A short row is hashed as a pair of digests.
* `Poseidon.hashRow_eq_compress_iff`: The rows with the digest of a node.
* `Poseidon.nodeRow_digest`, `Poseidon.nodeRow_children`: Two of them.
-/

namespace TraceCommit

namespace Poseidon

/-- The four elements of a row from an index on, with zeros behind its end. -/
def digestAt (row : Array Element) (start : Nat) : PoseidonDigest :=
  ⟨Vector.ofFn fun i => row.getD (start + i.val) 0⟩

theorem getElem_digestAt (row : Array Element) (start : Nat) {i : Nat} (hi : i < 4) :
    (digestAt row start).elements[i] = row.getD (start + i) 0 := by
  unfold digestAt
  exact Vector.getElem_ofFn _

variable (constants : RoundConstants) {row : Array Element} {left right : PoseidonDigest}

theorem hashRow_of_size_le (hsize : row.size ≤ digestElements) :
    hashRow constants row = digestAt row 0 := by
  unfold hashRow digestAt
  simp only [if_pos hsize, Nat.zero_add]

theorem hashRow_of_lt_size (hsize : digestElements < row.size) :
    hashRow constants row = hash constants row := by
  unfold hashRow
  rw [if_neg (Nat.not_le_of_lt hsize)]

/-- What fits into the rate is absorbed by one permutation. -/
theorem absorb_of_length_le {s : State} {front : List Element} (hpos : 0 < front.length)
    (hle : front.length ≤ rate) :
    absorb constants s front = permute constants (overwrite s front) := by
  have hnonempty : ¬ front.isEmpty = true := by
    rw [List.isEmpty_iff]
    exact List.ne_nil_of_length_pos hpos
  rw [absorb, if_neg hnonempty, List.take_of_length_le hle, List.drop_of_length_le hle, absorb,
    if_pos List.isEmpty_nil]

/-- The first eight elements of a row are those of two digests. -/
theorem getD_pair (row : Array Element) {i : Nat} (hi : i < rate) :
    ((digestAt row 0).elements.toList ++ (digestAt row 4).elements.toList).getD i 0 =
      row.getD i 0 := by
  have hlength : (digestAt row 0).elements.toList.length = 4 := Vector.length_toList
  have hlength' : (digestAt row 4).elements.toList.length = 4 := Vector.length_toList
  have hrate : rate = 8 := rfl
  rw [List.getD_eq_getElem?_getD]
  rcases Nat.lt_or_ge i 4 with hlow | hhigh
  · rw [List.getElem?_append_left (by omega), List.getElem?_eq_getElem (by omega),
      Option.getD_some, Vector.getElem_toList, getElem_digestAt, Nat.zero_add]
  · have hindex : 4 + (i - 4) = i := by omega
    rw [List.getElem?_append_right (by omega), hlength, List.getElem?_eq_getElem (by omega),
      Option.getD_some, Vector.getElem_toList, getElem_digestAt, hindex]

/-- Overwriting a state of zeros with a short row leaves zeros behind it, as
    overwriting it with two digests does. -/
theorem overwrite_pair (hsize : row.size ≤ rate) :
    overwrite (Vector.replicate 12 0) row.toList =
      overwrite (Vector.replicate 12 0)
        ((digestAt row 0).elements.toList ++ (digestAt row 4).elements.toList) := by
  have hrate : rate = 8 := rfl
  unfold overwrite
  refine Vector.ext (fun i hi => ?_)
  have hblank : (Vector.replicate 12 (0 : Element)).get ⟨i, hi⟩ = 0 := Vector.getElem_replicate hi
  simp only [Vector.getElem_ofFn, hblank]
  by_cases hlow : i < rate
  · rw [getD_pair row hlow, List.getD_eq_getElem?_getD, Array.getElem?_toList,
      Array.getD_eq_getD_getElem?]
  · -- Behind the eighth element nothing is overwritten in either case.
    rw [List.getD_eq_getElem?_getD, List.getD_eq_getElem?_getD, List.getElem?_eq_none,
      List.getElem?_eq_none]
    · rw [List.length_append, Vector.length_toList, Vector.length_toList]
      omega
    · rw [Array.length_toList]
      omega

/-- A row that fits into the rate is hashed as two digests are compressed. -/
theorem hash_of_size_le_rate (hpos : 0 < row.size) (hsize : row.size ≤ rate) :
    hash constants row = compress constants (digestAt row 0) (digestAt row 4) := by
  unfold hash compress
  rw [absorb_of_length_le constants (by rwa [Array.length_toList]) (by rwa [Array.length_toList]),
    overwrite_pair hsize]

/-- The row is what the node over two digests is made of: the digest of the node,
    or both children side by side, where zeros at the end do not count. -/
def NodeRow (left right : PoseidonDigest) (row : Array Element) : Prop :=
  (row.size ≤ digestElements ∧ digestAt row 0 = compress constants left right) ∨
    (digestElements < row.size ∧ row.size ≤ rate ∧ digestAt row 0 = left ∧ digestAt row 4 = right)

/-- The row is hashed to the digest of the node without being made of it. -/
def HashCollision (left right : PoseidonDigest) (row : Array Element) : Prop :=
  digestElements < row.size ∧ ¬ NodeRow constants left right row ∧
    hash constants row = compress constants left right

/-- The rows with the digest of a node. -/
theorem hashRow_eq_compress_iff : hashRow constants row = compress constants left right ↔
    NodeRow constants left right row ∨ HashCollision constants left right row := by
  have hdigest : 0 < digestElements := by decide
  constructor
  · intro hsame
    by_cases hnode : NodeRow constants left right row
    · exact Or.inl hnode
    · rcases Nat.lt_or_ge digestElements row.size with hlong | hshort
      · rw [hashRow_of_lt_size constants hlong] at hsame
        exact Or.inr ⟨hlong, hnode, hsame⟩
      · rw [hashRow_of_size_le constants hshort] at hsame
        exact absurd (Or.inl ⟨hshort, hsame⟩) hnode
  · rintro ((⟨hshort, hsame⟩ | ⟨hlong, hrate, rfl, rfl⟩) | ⟨hlong, _, hsame⟩)
    · rw [hashRow_of_size_le constants hshort, hsame]
    · rw [hashRow_of_lt_size constants hlong,
        hash_of_size_le_rate constants (Nat.lt_trans hdigest hlong) hrate]
    · rw [hashRow_of_lt_size constants hlong, hsame]

/-- A digest is read back from a row that starts with it. -/
theorem digestAt_append (digest : PoseidonDigest) (rest : Array Element) :
    digestAt (digest.elements.toArray ++ rest) 0 = digest := by
  cases digest with
  | mk elements =>
      unfold digestAt
      rw [PoseidonDigest.mk.injEq]
      refine Vector.ext (fun i hi => ?_)
      rw [Vector.getElem_ofFn, Nat.zero_add, Array.getD_eq_getD_getElem?,
        Array.getElem?_append_left (by rwa [Vector.size_toArray]),
        Array.getElem?_eq_getElem (by rwa [Vector.size_toArray]), Option.getD_some,
        Vector.getElem_toArray]

theorem digestAt_toArray (digest : PoseidonDigest) :
    digestAt digest.elements.toArray 0 = digest := by
  have hread := digestAt_append digest #[]
  rwa [Array.append_empty] at hread

/-- It is also read back from behind another one. -/
theorem digestAt_append_append (left right : PoseidonDigest) :
    digestAt (left.elements.toArray ++ right.elements.toArray) 4 = right := by
  have hskip : digestAt (left.elements.toArray ++ right.elements.toArray) 4 =
      digestAt right.elements.toArray 0 := by
    unfold digestAt
    rw [PoseidonDigest.mk.injEq]
    refine Vector.ext (fun i hi => ?_)
    have hsize : left.elements.toArray.size = 4 := Vector.size_toArray _
    rw [Vector.getElem_ofFn, Vector.getElem_ofFn, Array.getD_eq_getD_getElem?,
      Array.getD_eq_getD_getElem?, Array.getElem?_append_right (by omega), hsize,
      Nat.add_sub_cancel_left, Nat.zero_add]
  rw [hskip, digestAt_toArray]

theorem nodeRow_digest (left right : PoseidonDigest) :
    NodeRow constants left right (compress constants left right).elements.toArray := by
  refine Or.inl ⟨?_, digestAt_toArray _⟩
  rw [Vector.size_toArray]
  exact Nat.le_refl 4

theorem nodeRow_children (left right : PoseidonDigest) :
    NodeRow constants left right (left.elements.toArray ++ right.elements.toArray) := by
  have hsize : (left.elements.toArray ++ right.elements.toArray).size = 8 := by
    rw [Array.size_append, Vector.size_toArray, Vector.size_toArray]
  refine Or.inr ⟨?_, ?_, digestAt_append left _, digestAt_append_append left right⟩
  · rw [hsize]
    decide
  · rw [hsize]
    exact Nat.le_refl 8

end Poseidon

end TraceCommit
