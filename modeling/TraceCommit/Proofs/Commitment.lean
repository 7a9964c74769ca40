import TraceCommit.Commitment
import TraceCommit.Hash.Keccak.Sponge
import TraceCommit.Proofs.Merkle.Built
import TraceCommit.Proofs.Timing
import TraceCommit.Proofs.Transform.Extension
import TraceCommit.Proofs.Transpose

/-!
# What a Commitment Commits To

The stages of a commitment, put together. The columns of a trace are
interpolated and extended, the extensions become the columns of a matrix, its
rows are hashed, and the digests become the leaves of the tree. So leaf `i`
belongs to the values of all columns' polynomials at point `i` of the coset.

## Main definitions

* `pointRow`: The values of polynomials at one point.

## Theorems

* `interpolateColumns_eq`, `ldeBatch_eq`: The columns of the stages.
* `hashRows_eq`, `hashMatrixRows_extensions`: The digests of the rows.
* `commitTrace_ends`: How a run ends, by its stages.
* `commitTrace_commits`: The tree over a trace.
-/

namespace TraceCommit

variable (c : Capability) (s : Schedule) {k : Nat}

/-- The values of polynomials at one point. -/
def pointRow (polynomials : Array (Array Element)) (point : Element) : Array Element :=
  polynomials.map fun coefficients => (Polynomial.mk coefficients).eval point

/-- The columns of a trace are interpolated one by one. -/
theorem interpolateColumns_eq (hk : k ≤ 32) {columns : Array (Array Element)}
    (hsize : ∀ i (hi : i < columns.size), columns[i].size = 2 ^ k) :
    interpolateColumns ⟨.of c, s⟩ columns =
      .ok (columns.map fun column => interpolation k (entry column)) := by
  unfold interpolateColumns
  refine s.collect_map_eq_pure _ columns #[] _ (fun i hi => ?_)
  rw [← Array.getElem_eq_getD (h := hi) #[]]
  exact ifft_eq c (s.branch i) hk (hsize i hi)

/-- The polynomials are extended one by one. -/
theorem ldeBatch_eq {polynomials : Array (Array Element)}
    (hsize : ∀ i (hi : i < polynomials.size), polynomials[i].size = 2 ^ k) {rateBits : UInt64}
    (hrate : k + rateBits.toNat ≤ 32) :
    ldeBatch ⟨.of c, s⟩ polynomials rateBits =
      .ok (polynomials.map (extension (k + rateBits.toNat))) := by
  unfold ldeBatch
  refine s.collect_map_eq_pure _ polynomials #[] _ (fun i hi => ?_)
  rw [← Array.getElem_eq_getD (h := hi) #[]]
  exact lde_eq c (s.branch i) (hsize i hi) hrate

/-- Row `i` of the extensions holds the values at point `i` of the coset. -/
theorem row_extensions {m : Nat} {polynomials : Array (Array Element)}
    (hsize : ∀ p ∈ polynomials, p.size ≤ 2 ^ m) {i : Nat} (hi : i < 2 ^ m) :
    (polynomials.map (extension m)).map (·.getD i default) =
      pointRow polynomials (Element.generator * unityRoot m ^ i) := by
  unfold pointRow
  rw [Array.map_map]
  refine Array.map_congr_left (fun p hp => ?_)
  exact entry_extension (hsize p hp) hi

/-- Rows that are all there are hashed in any order, but their digests stand in the
    rows' order. -/
theorem hashRows_eq {δ : Type} (h : Hasher δ) {count : Nat} {row : Nat → Option (Array Element)}
    (rows : Nat → Array Element) (hrow : ∀ i < count, row i = some (rows i)) :
    hashRows h s count row = .ok (Array.ofFn fun i : Fin count => h.hashRow (rows i)) := by
  unfold hashRows
  refine s.collect_eq_pure (m := Except Violation) _ count (fun i => h.hashRow (rows i))
    (fun i hi => ?_)
  simp only [hrow i hi]
  rfl

/-- The digests of the rows of a transpose. -/
theorem hashMatrixRows_transposed {δ : Type} (h : Hasher δ) {columns : Array (Array Element)}
    (hcolumns : 0 < columns.size) (height : Nat) :
    hashMatrixRows h s ⟨Matrix.transposed columns height, columns.size⟩ =
      .ok (Array.ofFn fun i : Fin height => h.hashRow (columns.map (·.getD i default))) := by
  unfold hashMatrixRows
  rw [Matrix.height_transposed hcolumns]
  refine hashRows_eq s h (fun i => columns.map (·.getD i default)) (fun i hi => ?_)
  rw [Matrix.row_transposed columns hi]
  rfl

/-- The digests of the rows, one for each point. -/
theorem hashMatrixRows_extensions {δ : Type} (h : Hasher δ) {m : Nat}
    {polynomials : Array (Array Element)} (hpolynomials : 0 < polynomials.size)
    (hsize : ∀ p ∈ polynomials, p.size ≤ 2 ^ m) :
    hashMatrixRows h s ⟨Matrix.transposed (polynomials.map (extension m)) (2 ^ m),
      (polynomials.map (extension m)).size⟩ = .ok (Array.ofFn fun i : Fin (2 ^ m) =>
        h.hashRow (pointRow polynomials (Element.generator * unityRoot m ^ i.val))) := by
  rw [hashMatrixRows_transposed s h (by rwa [Array.size_map])]
  refine congrArg Except.ok (Array.ext ?_ (fun i h1 h2 => ?_))
  · rw [Array.size_ofFn, Array.size_ofFn]
  · rw [Array.size_ofFn] at h2
    rw [Array.getElem_ofFn, Array.getElem_ofFn, row_extensions hsize h2]

variable {m : Type → Type} [Monad m] [LawfulMonad m] {δ : Type}

/-- Behind the two checks of the columns a run ends as its stages do, one on what
    the other has made. -/
theorem commitTrace_ends (h : Hasher δ) {e : Engine} {w : Stopwatch m} (hw : w.Faithful)
    {columns : Array (Array Element)} {height : Nat} (hcolumns : 0 < columns.size)
    (hsize : ∀ i (hi : i < columns.size), columns[i].size = height) (rateBits : UInt64)
    (config : MerkleConfig) : Timed.Ends (commitTrace h e w columns rateBits config) (do
      let coefficients ← (interpolateColumns (e.branch 0) columns).mapError .transform
      let extended ← (ldeBatch (e.branch 1) coefficients rateBits).mapError .transform
      let rows ← (Matrix.ofColumns (e.branch 2).schedule extended).mapError .violation
      let leaves ← (hashMatrixRows h (e.branch 3).schedule rows).mapError .violation
      (MerkleTree.ofLeafDigests h (e.branch 4).schedule leaves config).mapError .merkle) := by
  have hfirst : columns[0]? = some columns[0] := Array.getElem?_eq_getElem hcolumns
  have hsame := not_any_size_ne hsize
  rw [← hsize 0 hcolumns] at hsame
  unfold commitTrace
  simp only [hfirst, pure_bind, if_neg hsame]
  refine (Timed.ends_phaseOrFail hw .interpolate .transform _).bind (fun coefficients => ?_)
  refine (Timed.ends_phaseOrFail hw .lde .transform _).bind (fun extended => ?_)
  refine (Timed.ends_phaseOrFail hw .transpose .violation _).bind (fun rows => ?_)
  refine (Timed.ends_phaseOrFail hw .hashRows .violation _).bind (fun leaves => ?_)
  exact Timed.ends_phaseOrFail hw .commit .merkle _

/-- A run whose stages succeed returns the tree of the last one. -/
theorem commitTrace_returns (h : Hasher δ) {e : Engine} {w : Stopwatch m} (hw : w.Faithful)
    {columns coefficients extended : Array (Array Element)} {rows : Matrix Element}
    {leaves : Array δ} {tree : MerkleTree δ} {rateBits : UInt64} {config : MerkleConfig}
    {height : Nat} (hcolumns : 0 < columns.size)
    (hsize : ∀ i (hi : i < columns.size), columns[i].size = height)
    (hinterpolate : interpolateColumns (e.branch 0) columns = .ok coefficients)
    (hextend : ldeBatch (e.branch 1) coefficients rateBits = .ok extended)
    (htranspose : Matrix.ofColumns (e.branch 2).schedule extended = .ok rows)
    (hhash : hashMatrixRows h (e.branch 3).schedule rows = .ok leaves)
    (htree : MerkleTree.ofLeafDigests h (e.branch 4).schedule leaves config = .ok tree) :
    Timed.Returns (commitTrace h e w columns rateBits config) tree := by
  have hends := commitTrace_ends h (e := e) hw hcolumns hsize rateBits config
  rw [hinterpolate, Except.mapError, ok_bind, hextend, Except.mapError, ok_bind, htranspose,
    Except.mapError, ok_bind, hhash, Except.mapError, ok_bind, htree] at hends
  exact hends

/-- A trace of columns of equal height, a power of two, is committed to: leaf `i`
    is the digest of the values that the columns' polynomials have at point `i`
    of the larger coset. Through each column there is one polynomial with no more
    coefficients than the column has values. -/
theorem commitTrace_commits (h : Hasher δ) {w : Stopwatch m} (hw : w.Faithful)
    {columns : Array (Array Element)} (hcolumns : 0 < columns.size)
    (hsize : ∀ i (hi : i < columns.size), columns[i].size = 2 ^ k) {rateBits : UInt64}
    (hrate : k + rateBits.toNat ≤ 32) {config : MerkleConfig}
    (hcap : config.capHeight.toNat ≤ k + rateBits.toNat) :
    ∃ ω ω' polynomials tree,
      Element.rootOfUnity k = .ok ω ∧ Element.rootOfUnity (k + rateBits.toNat) = .ok ω' ∧
      polynomials.size = columns.size ∧
      (∀ i (hi : i < columns.size) (hi' : i < polynomials.size) coefficients,
        Interpolates ω (2 ^ k) columns[i] coefficients ↔ coefficients = polynomials[i]) ∧
      Timed.Returns (commitTrace h ⟨.of c, s⟩ w columns rateBits config) tree ∧
      tree.leafCount = 2 ^ k * 2 ^ rateBits.toNat ∧
      tree.level 0 = .ok (Array.ofFn fun i : Fin (2 ^ k * 2 ^ rateBits.toNat) =>
        h.hashRow (pointRow polynomials (Element.generator * ω' ^ i.val))) := by
  have hk : k ≤ 32 := by omega
  have hcount : 2 ^ k * 2 ^ rateBits.toNat = 2 ^ (k + rateBits.toNat) := (pow_add 2 _ _).symm
  rw [hcount]
  -- Each stage succeeds on what the one before it made.
  have hinterpolate := interpolateColumns_eq c (s.branch 0) hk hsize
  generalize hpolynomials : (columns.map fun column => interpolation k (entry column)) =
    polynomials at hinterpolate
  have hwidth : polynomials.size = columns.size := by rw [← hpolynomials, Array.size_map]
  have hdegree : ∀ i (hi : i < polynomials.size), polynomials[i].size = 2 ^ k := by
    intro i hi
    subst hpolynomials
    rw [Array.getElem_map, size_interpolation]
  have hextend := ldeBatch_eq c (s.branch 1) hdegree hrate
  -- The extensions are columns of one height, so they can be transposed.
  have htranspose := Matrix.ofColumns_eq (s.branch 2)
    (by rw [Array.size_map, hwidth]; exact hcolumns :
      0 < (polynomials.map (extension (k + rateBits.toNat))).size)
    (Nat.two_pow_pos (k + rateBits.toNat)) (fun i hi => by
      rw [Array.getElem_map, size_extension])
    (fun hnone => absurd hnone (by decide : Item.bytes Element ≠ 0))
  -- Row `i` of the transpose holds the values of all polynomials at point `i`.
  have hhash := hashMatrixRows_extensions (s.branch 3) h (hwidth ▸ hcolumns)
    (fun p hp => by
      rcases Array.getElem_of_mem hp with ⟨i, hi, rfl⟩
      rw [hdegree i hi]
      exact Nat.pow_le_pow_right Nat.two_pos (Nat.le_add_right k rateBits.toNat) :
        ∀ p ∈ polynomials, p.size ≤ 2 ^ (k + rateBits.toNat))
  rcases MerkleTree.exists_two_pow h (s.branch 4) (Array.size_ofFn : (Array.ofFn fun i :
    Fin (2 ^ (k + rateBits.toNat)) => h.hashRow (pointRow polynomials
      (Element.generator * unityRoot (k + rateBits.toNat) ^ i.val))).size = _) hcap with
    ⟨tree, htree, hleafCount, hlevel⟩
  refine ⟨unityRoot k, unityRoot (k + rateBits.toNat), polynomials, tree,
    Element.rootOfUnity_eq hk, Element.rootOfUnity_eq hrate, hwidth, ?_, ?_, hleafCount, hlevel⟩
  · intro i hi hi' coefficients
    subst hpolynomials
    rw [interpolates_iff hk (hsize i hi), Array.getElem_map]
  · exact commitTrace_returns h hw hcolumns hsize hinterpolate hextend htranspose hhash htree

/-- Two columns of two values, extended to four rows. -/
theorem commitTrace_commits_two : ∃ ω ω' polynomials tree,
    Element.rootOfUnity 1 = .ok ω ∧ Element.rootOfUnity 2 = .ok ω' ∧
    polynomials.size = 2 ∧
    Timed.Returns (commitTrace (Hasher.keccak 32) ⟨.of .avx2, .backward 2⟩ .still
      #[#[1, 0], #[Element.two, 1]] 1 .standard) tree ∧
    tree.leafCount = 4 ∧
    tree.level 0 = .ok (Array.ofFn fun i : Fin 4 =>
      (Hasher.keccak 32).hashRow (pointRow polynomials (Element.generator * ω' ^ i.val))) := by
  rcases commitTrace_commits .avx2 (.backward 2) (Hasher.keccak 32) Stopwatch.still_faithful
    (by decide : 0 < #[#[1, 0], #[Element.two, 1]].size)
    (by decide : ∀ i (hi : i < #[#[1, 0], #[Element.two, 1]].size),
      #[#[1, 0], #[Element.two, 1]][i].size = 2 ^ 1)
    (by decide : 1 + (1 : UInt64).toNat ≤ 32)
    (by decide : MerkleConfig.standard.capHeight.toNat ≤ 1 + (1 : UInt64).toNat) with
    ⟨ω, ω', polynomials, tree, hω, hω', hwidth, _, hrun, hcount, hlevel⟩
  exact ⟨ω, ω', polynomials, tree, hω, hω', hwidth, hrun, hcount, hlevel⟩

end TraceCommit
