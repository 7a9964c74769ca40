import TraceCommit.Proofs.Merkle.Opening

/-!
# How Openings End

Caps and openings come from outside, so the check has to end well for all of
them, for caps without nodes and for more siblings than a word has bits as well.

The climb drops the lowest bit of the index for each sibling. That is never a
shift by more than one, so it holds for any number of siblings: what is left is
the index divided by a power of two, and on level `l` bit `l` of the index tells
the side, where bits that a word does not have are zero.

The leaves are counted only for an index that has no cap node above it. Their
number is then no larger than the index, so the shifted word is the exact number,
and a nonempty cap never gets there with 64 siblings or more. What is left is a
cap without nodes: it spans no leaves, but from 64 siblings on the shift that
should say so is refused, and the check breaks off instead of naming the index.

## Main definitions

* `nodeAbove`: The digest that siblings lead to.
* `MerkleCap.span`: The number of leaves below a cap.
* `OpeningEnds`: How the check of an opening ends.

## Theorems

* `climb_eq`: The climb leads to that digest.
* `verifyOpening_of_node`, `verifyOpening_of_outside`,
  `verifyOpening_of_overflow`: The check, case by case.
* `verifyOpening_eq_iff_openingEnds`: It ends in these ways and no others.
* `empty_cap_breaks_off`: A cap without nodes and 64 siblings.
-/

namespace TraceCommit

variable {δ : Type}

/-- The digest that siblings lead to. On level `l` bit `l` of the index tells on
    which side the sibling stands. -/
def nodeAbove (h : Hasher δ) (index : Nat) (digest : δ) (siblings : List δ) : δ :=
  siblings.zipIdx.foldl (fun node sibling =>
    if index.testBit sibling.2 then h.compress sibling.1 node
    else h.compress node sibling.1) digest

-- The induction starts the count at any level, where the word holds what is left of `i`.
theorem climb_eq_foldl (h : Hasher δ) (i : Nat) (siblings : List δ) :
    ∀ (level : Nat) (index : UInt64) (digest : δ), index.toNat = i >>> level →
      (climb h index digest siblings).2 = (siblings.zipIdx level).foldl (fun node sibling =>
        if i.testBit sibling.2 then h.compress sibling.1 node
        else h.compress node sibling.1) digest := by
  induction siblings with
  | nil =>
      intro level index digest _
      rfl
  | cons sibling rest ih =>
      intro level index digest hindex
      have hnext : (index >>> 1).toNat = i >>> (level + 1) := by
        rw [toNat_shiftRight_one, hindex, ← Nat.shiftRight_add]
      have hbit : i.testBit level = true ↔ ¬ index &&& 1 = 0 := by
        rw [and_one_eq_zero_iff, hindex, Nat.testBit_eq_decide_div_mod_eq, decide_eq_true_iff,
          Nat.shiftRight_eq_div_pow]
        omega
      rw [climb_cons, ih (level + 1) _ _ hnext, List.zipIdx_cons, List.foldl_cons]
      unfold childPair
      by_cases hzero : index &&& 1 = 0
      · rw [if_pos hzero, if_neg (fun h => hbit.mp h hzero)]
      · rw [if_neg hzero, if_pos (hbit.mpr hzero)]

theorem climb_eq (h : Hasher δ) (index : UInt64) (digest : δ) (siblings : List δ) :
    (climb h index digest siblings).2 = nodeAbove h index.toNat digest siblings :=
  climb_eq_foldl h index.toNat siblings 0 index digest rfl

namespace MerkleCap

variable {cap : MerkleCap δ} {levels : Nat}

/-- The number of leaves that lie so many levels below a cap. No word bounds it. -/
def span (cap : MerkleCap δ) (levels : Nat) : Nat := cap.length * 2 ^ levels

theorem lt_span_iff {index : Nat} :
    index < cap.span levels ↔ index / 2 ^ levels < cap.nodes.size :=
  (Nat.div_lt_iff_lt_mul (Nat.two_pow_pos levels)).symm

/-- Below a single node already there are more leaves than words can number. -/
theorem lt_span_of_length_ne (hnodes : cap.length ≠ 0) (hlevels : 64 ≤ levels) (index : UInt64) :
    index.toNat < cap.span levels := by
  have hword : 2 ^ 64 ≤ 2 ^ levels := Nat.pow_le_pow_right Nat.two_pos hlevels
  have hspan : 2 ^ levels ≤ cap.span levels := Nat.le_mul_of_pos_left _ (Nat.pos_of_ne_zero hnodes)
  exact Nat.lt_of_lt_of_le index.toNat_lt (Nat.le_trans hword hspan)

theorem getElem?_of_span_le {index : Nat} (houtside : cap.span levels ≤ index) :
    cap.nodes[index >>> levels]? = none := by
  rw [Array.getElem?_eq_none_iff, Nat.shiftRight_eq_div_pow, ← Nat.not_lt, ← lt_span_iff,
    Nat.not_lt]
  exact houtside

end MerkleCap

/-- How the check of an opening ends, by the place of the index among the leaves
    below the cap and by the digest that the siblings lead to. -/
inductive OpeningEnds (cap : MerkleCap δ) (levels : Nat) (index : UInt64) (found : δ) :
    Except MerkleError Unit → Prop
  /-- The cap node above the index is the digest found. -/
  | accepted (hinside : index.toNat < cap.span levels)
      (hnode : cap.nodes[index.toNat / 2 ^ levels]? = some found) :
      OpeningEnds cap levels index found (.ok ())
  /-- It is another one. -/
  | failed {node : δ} (hinside : index.toNat < cap.span levels)
      (hnode : cap.nodes[index.toNat / 2 ^ levels]? = some node) (hother : node ≠ found) :
      OpeningEnds cap levels index found (.error .verificationFailed)
  /-- There is no such leaf. -/
  | outside (houtside : cap.span levels ≤ index.toNat) (hlevels : cap.length = 0 → levels < 64) :
      OpeningEnds cap levels index found (.error (.indexOutOfRange index (cap.span levels)))
  /-- There is no leaf at all, and the number of nodes is shifted too far. -/
  | overflow (hempty : cap.length = 0) (hlevels : 64 ≤ levels) :
      OpeningEnds cap levels index found (.error (.violation .overflow))

variable [DecidableEq δ] {h : Hasher δ} {row : Array Element} {index : UInt64}
  {cap : MerkleCap δ} {proof : MerkleProof δ}

theorem verifyOpening_of_node {node : δ}
    (hnode : cap.nodes[index.toNat / 2 ^ proof.siblings.length]? = some node) :
    verifyOpening h row index cap proof =
      if node = nodeAbove h index.toNat (h.hashRow row) proof.siblings then .ok ()
      else .error .verificationFailed := by
  rw [← Nat.shiftRight_eq_div_pow] at hnode
  rw [verifyOpening_eq, hnode, climb_eq]

/-- An index beyond the leaves is refused with their number, which loses no bit in
    being shifted because it is no larger than the index. -/
theorem verifyOpening_of_outside (hlevels : proof.siblings.length < 64)
    (houtside : cap.span proof.siblings.length ≤ index.toNat) :
    verifyOpening h row index cap proof =
      .error (.indexOutOfRange index (cap.span proof.siblings.length)) := by
  have hamount : (UInt64.ofNat proof.siblings.length).toNat = proof.siblings.length :=
    UInt64.toNat_ofNat_of_lt' (Nat.lt_trans hlevels (by decide))
  have hcount : (UInt64.ofNat (cap.span proof.siblings.length)).toNat =
      cap.span proof.siblings.length :=
    UInt64.toNat_ofNat_of_lt' (Nat.lt_of_le_of_lt houtside index.toNat_lt)
  have hshift : Checked.shiftLeft (UInt64.ofNat cap.length) (UInt64.ofNat proof.siblings.length) =
      .ok (UInt64.ofNat (cap.span proof.siblings.length)) := by
    rw [Checked.shiftLeft_of_lt cap.length (by rwa [hamount]), hamount]
    rfl
  rw [verifyOpening_eq, MerkleCap.getElem?_of_span_le houtside, hshift]
  show Except.error (MerkleError.indexOutOfRange index _) = _
  rw [hcount]

theorem verifyOpening_of_overflow (hempty : cap.length = 0) (hlevels : 64 ≤ proof.siblings.length)
    (hword : proof.siblings.length < UInt64.size) :
    verifyOpening h row index cap proof = .error (.violation .overflow) := by
  have houtside : cap.span proof.siblings.length ≤ index.toNat := by
    unfold MerkleCap.span
    rw [hempty, Nat.zero_mul]
    exact Nat.zero_le _
  have hshift : Checked.shiftLeft (UInt64.ofNat cap.length) (UInt64.ofNat proof.siblings.length) =
      .error .overflow :=
    Checked.shiftLeft_of_le _ (by rwa [UInt64.toNat_ofNat_of_lt' hword])
  rw [verifyOpening_eq, MerkleCap.getElem?_of_span_le houtside, hshift]

/-- The check of any opening against any cap, with no more siblings than a word can
    count, ends in one of the four ways and says which. -/
theorem verifyOpening_eq_iff_openingEnds (hword : proof.siblings.length < UInt64.size)
    (result : Except MerkleError Unit) : verifyOpening h row index cap proof = result ↔
      OpeningEnds cap proof.siblings.length index
        (nodeAbove h index.toNat (h.hashRow row) proof.siblings) result := by
  constructor
  · rintro rfl
    by_cases hinside : index.toNat < cap.span proof.siblings.length
    · have hnode := Array.getElem?_eq_getElem (MerkleCap.lt_span_iff.mp hinside)
      rw [verifyOpening_of_node hnode]
      split
      · rename_i hsame
        rw [hsame] at hnode
        exact .accepted hinside hnode
      · rename_i hother
        exact .failed hinside hnode hother
    · rw [Nat.not_lt] at hinside
      by_cases hlevels : proof.siblings.length < 64
      · rw [verifyOpening_of_outside hlevels hinside]
        exact .outside hinside (fun _ => hlevels)
      · rw [Nat.not_lt] at hlevels
        have hempty : cap.length = 0 := by
          by_contra hnodes
          exact Nat.not_lt_of_le hinside (MerkleCap.lt_span_of_length_ne hnodes hlevels index)
        rw [verifyOpening_of_overflow hempty hlevels hword]
        exact .overflow hempty hlevels
  · intro hends
    cases hends with
    | accepted hinside hnode => rw [verifyOpening_of_node hnode, if_pos rfl]
    | failed hinside hnode hother => rw [verifyOpening_of_node hnode, if_neg hother]
    | outside houtside hlevels =>
        refine verifyOpening_of_outside ?_ houtside
        by_contra hmany
        by_cases hempty : cap.length = 0
        · exact hmany (hlevels hempty)
        · exact Nat.not_lt_of_le houtside
            (MerkleCap.lt_span_of_length_ne hempty (Nat.le_of_not_lt hmany) index)
    | overflow hempty hlevels => exact verifyOpening_of_overflow hempty hlevels hword

/-- A cap without nodes has no leaf 5 with one sibling, which is said, and with 64,
    where the check breaks off. -/
theorem verifyOpening_eq_iff_openingEnds_empty :
    verifyOpening (Hasher.keccak 32) #[1] 5 ⟨#[]⟩ ⟨[(Hasher.keccak 32).zero]⟩ =
      .error (.indexOutOfRange 5 0) ∧
    verifyOpening (Hasher.keccak 32) #[1] 5 ⟨#[]⟩
        ⟨List.replicate 64 (Hasher.keccak 32).zero⟩ = .error (.violation .overflow) := by
  constructor
  · exact (verifyOpening_eq_iff_openingEnds (by decide) _).mpr
      (.outside (by decide) (fun _ => by decide))
  · exact (verifyOpening_eq_iff_openingEnds (by decide) _).mpr
      (.overflow rfl (by decide))

/-- A cap without nodes and 64 siblings: index 0 is not below the number of leaves,
    which is zero, and the check breaks off instead of refusing the index. -/
theorem empty_cap_breaks_off :
    (MerkleCap.mk (#[] : Array (KeccakDigest 1))).span 64 ≤ (0 : UInt64).toNat ∧
      verifyOpening (Hasher.keccak 1) #[1] 0 ⟨#[]⟩
        ⟨List.replicate 64 (Hasher.keccak 1).zero⟩ = .error (.violation .overflow) := by
  refine ⟨by decide, ?_⟩
  exact verifyOpening_of_overflow rfl (by decide) (by decide)

end TraceCommit
