import TraceCommit.Hash.Poseidon.Sponge
import TraceCommit.Proofs.Commitment
import TraceCommit.Proofs.Transform.Refusal

/-!
# Which Traces Are Committed To

A trace comes from outside, with any number of columns of any lengths, and so do
the rate and the height of the cap. A commitment asks for five things, one after
another: there are columns, they have one height, the height is a power of two,
the field has room for the extension, and the cap is no lower than the leaves.
The first that does not hold is what the run ends with.

Every stage has conditions of its own, and some of them are asserted and not
reported. What the stage before has made meets them: the columns of each table
have one height, a power of two, from the trace to the rows, so the transpose
has nothing to assert and reads no cell that is not there, every row that is hashed
is one of the matrix, and the leaves are never none or in need of padding, so each
level of the tree is half as long as the one below it.

## Main definitions

* `ColumnsOfHeight`: Columns, each with so many values.
* `Committable`: What a commitment asks for.
* `TraceRefusal`: What is wrong with a trace, the first cause only.
* `Failure.IsViolation`: A failure that stands for a broken calling contract.

## Theorems

* `exists_polynomials`, `exists_extensions`, `exists_rowDigests`: What each stage
  makes.
* `exists_leaves`: What is left to be decided by the last stage.
* `exists_commitTrace`: A trace that is committed to.
* `commitTrace_ends_of_refusal`: A cause is what the run ends with.
* `commitTrace_outcome`: A run ends with a tree or with the first cause.
-/

namespace TraceCommit

/-- There are columns, and each has so many values. -/
structure ColumnsOfHeight (columns : Array (Array Element)) (height : Nat) : Prop where
  nonempty : 0 < columns.size
  size_eq : ∀ i (hi : i < columns.size), columns[i].size = height

theorem ColumnsOfHeight.map {columns : Array (Array Element)} {height height' : Nat}
    {f : Array Element → Array Element} (h : ColumnsOfHeight columns height)
    (hf : ∀ column, (f column).size = height') : ColumnsOfHeight (columns.map f) height' := by
  refine ⟨?_, fun i hi => ?_⟩
  · rw [Array.size_map]
    exact h.nonempty
  · rw [Array.getElem_map]
    exact hf _

/-- What a commitment asks for. -/
def Committable (columns : Array (Array Element)) (rateBits : UInt64) (config : MerkleConfig) :
    Prop :=
  ∃ k, ColumnsOfHeight columns (2 ^ k) ∧ k + rateBits.toNat ≤ 32 ∧
    config.capHeight.toNat ≤ k + rateBits.toNat

/-- What is wrong with a trace. Each cause asks for those before it not to apply. -/
inductive TraceRefusal (columns : Array (Array Element)) (rateBits : UInt64)
    (config : MerkleConfig) : Failure → Prop
  | noColumns (hnone : columns.size = 0) :
      TraceRefusal columns rateBits config (.trace .noColumns)
  | unequalColumns (hsome : 0 < columns.size)
      (hunequal : ¬ ∃ height, ColumnsOfHeight columns height) :
      TraceRefusal columns rateBits config (.trace .unequalColumns)
  | invalidHeight {height : Nat} (hcolumns : ColumnsOfHeight columns height)
      (hpower : ¬ ∃ k, height = 2 ^ k) :
      TraceRefusal columns rateBits config (.transform (.invalidDomainSize height))
  | tooHigh {k : Nat} (hcolumns : ColumnsOfHeight columns (2 ^ k)) (hk : 32 < k) :
      TraceRefusal columns rateBits config (.transform (.domainTooLarge k maxLog2Size))
  | rateTooLarge {k : Nat} (hcolumns : ColumnsOfHeight columns (2 ^ k)) (hk : k ≤ 32)
      (hrate : 32 < k + rateBits.toNat) :
      TraceRefusal columns rateBits config
        (.transform (.domainTooLarge (k + rateBits.toNat) maxLog2Size))
  | capTooHigh {k : Nat} (hcolumns : ColumnsOfHeight columns (2 ^ k))
      (hrate : k + rateBits.toNat ≤ 32) (hcap : k + rateBits.toNat < config.capHeight.toNat) :
      TraceRefusal columns rateBits config
        (.merkle (.capHeightTooLarge config.capHeight (k + rateBits.toNat)))

/-- The failures that stand for a broken calling contract, whichever part broke it. -/
def Failure.IsViolation : Failure → Prop
  | .violation _ => True
  | .config (.violation _) => True
  | .transform (.violation _) => True
  | .merkle (.violation _) => True
  | _ => False

section Causes

variable {columns : Array (Array Element)} {rateBits : UInt64} {config : MerkleConfig}

/-- Without a first cause the trace is as it should be. -/
theorem committable_or_refusal (columns : Array (Array Element)) (rateBits : UInt64)
    (config : MerkleConfig) : Committable columns rateBits config ∨
      ∃ failure, TraceRefusal columns rateBits config failure := by
  rcases Nat.eq_zero_or_pos columns.size with hnone | hsome
  · exact Or.inr ⟨_, .noColumns hnone⟩
  by_cases hequal : ∃ height, ColumnsOfHeight columns height
  · rcases hequal with ⟨height, hcolumns⟩
    by_cases hpower : ∃ k, height = 2 ^ k
    · rcases hpower with ⟨k, rfl⟩
      rcases Nat.lt_or_ge 32 k with hk | hk
      · exact Or.inr ⟨_, .tooHigh hcolumns hk⟩
      rcases Nat.lt_or_ge 32 (k + rateBits.toNat) with hrate | hrate
      · exact Or.inr ⟨_, .rateTooLarge hcolumns hk hrate⟩
      rcases Nat.lt_or_ge (k + rateBits.toNat) config.capHeight.toNat with hcap | hcap
      · exact Or.inr ⟨_, .capTooHigh hcolumns hrate hcap⟩
      · exact Or.inl ⟨k, hcolumns, hrate, hcap⟩
    · exact Or.inr ⟨_, .invalidHeight hcolumns hpower⟩
  · exact Or.inr ⟨_, .unequalColumns hsome hequal⟩

/-- No cause is a broken contract, and none speaks of the number of leaves. -/
theorem TraceRefusal.not_isViolation {failure : Failure}
    (h : TraceRefusal columns rateBits config failure) :
    ¬ failure.IsViolation ∧ (∀ count, failure ≠ .merkle (.invalidLeafCount count)) ∧
      failure ≠ .merkle .emptyCommitment := by
  cases h <;> exact ⟨id, nofun, nofun⟩

end Causes

section Stages

variable (c : Capability) (s : Schedule) {columns : Array (Array Element)} {k height : Nat}

/-- The columns of a trace become polynomials with as many coefficients. -/
theorem exists_polynomials (hk : k ≤ 32) (hcolumns : ColumnsOfHeight columns (2 ^ k)) :
    ∃ polynomials, interpolateColumns ⟨.of c, s⟩ columns = .ok polynomials ∧
      ColumnsOfHeight polynomials (2 ^ k) :=
  ⟨_, interpolateColumns_eq c s hk hcolumns.size_eq,
    hcolumns.map (fun column => size_interpolation k (entry column))⟩

/-- Polynomials become columns that are higher by the rate. -/
theorem exists_extensions (hcolumns : ColumnsOfHeight columns (2 ^ k)) {rateBits : UInt64}
    (hrate : k + rateBits.toNat ≤ 32) :
    ∃ extended, ldeBatch ⟨.of c, s⟩ columns rateBits = .ok extended ∧
      ColumnsOfHeight extended (2 ^ (k + rateBits.toNat)) :=
  ⟨_, ldeBatch_eq c s hcolumns.size_eq hrate,
    hcolumns.map (size_extension (k + rateBits.toNat))⟩

/-- Columns of one height become as many rows, and each of these a leaf digest. The
    cells are found and written where they are asked for, and so are the rows. -/
theorem exists_rowDigests (s' : Schedule) {δ : Type} (h : Hasher δ) (hheight : 0 < height)
    (hcolumns : ColumnsOfHeight columns height) :
    ∃ rows leaves, Matrix.ofColumns s columns = .ok rows ∧
      hashMatrixRows h s' rows = .ok leaves ∧ leaves.size = height :=
  ⟨_, _, Matrix.ofColumns_eq s hcolumns.nonempty hheight hcolumns.size_eq
      (fun hnone => absurd hnone (by decide : Item.bytes Element ≠ 0)),
    hashMatrixRows_transposed s' h hcolumns.nonempty height, Array.size_ofFn⟩

end Stages

section Runs

variable (c : Capability) (s : Schedule) {m : Type → Type} [Monad m] [LawfulMonad m] {δ : Type}
  (h : Hasher δ) {w : Stopwatch m} {columns : Array (Array Element)} {k : Nat} {rateBits : UInt64}
  {config : MerkleConfig}

/-- With columns of a usable height and room for the extension the last stage
    decides, over a power of two of leaf digests. -/
theorem exists_leaves (hw : w.Faithful) (hcolumns : ColumnsOfHeight columns (2 ^ k))
    (hrate : k + rateBits.toNat ≤ 32) (config : MerkleConfig) :
    ∃ leaves : Array δ, leaves.size = 2 ^ (k + rateBits.toNat) ∧
      Timed.Ends (commitTrace h ⟨.of c, s⟩ w columns rateBits config)
        ((MerkleTree.ofLeafDigests h (s.branch 4) leaves config).mapError .merkle) := by
  rcases exists_polynomials c (s.branch 0) (by omega : k ≤ 32) hcolumns with
    ⟨polynomials, hinterpolate, hpolynomials⟩
  rcases exists_extensions c (s.branch 1) hpolynomials hrate with ⟨extended, hextend, hextended⟩
  rcases exists_rowDigests (s.branch 2) (s.branch 3) h (Nat.two_pow_pos _) hextended with
    ⟨rows, leaves, htranspose, hhash, hleaves⟩
  refine ⟨leaves, hleaves, ?_⟩
  have hends := commitTrace_ends h (e := ⟨.of c, s⟩) hw hcolumns.nonempty hcolumns.size_eq
    rateBits config
  simp only [Engine.branch, hinterpolate, hextend, htranspose, hhash, Except.mapError,
    ok_bind] at hends
  exact hends

/-- A trace of columns of equal height, a power of two, is committed to by a tree
    over the rows of its extension. -/
theorem exists_commitTrace (hw : w.Faithful) (hcolumns : ColumnsOfHeight columns (2 ^ k))
    (hrate : k + rateBits.toNat ≤ 32) (hcap : config.capHeight.toNat ≤ k + rateBits.toNat) :
    ∃ leaf tree, Timed.Returns (commitTrace h ⟨.of c, s⟩ w columns rateBits config) tree ∧
      tree.Over h leaf ∧ tree.height = k + rateBits.toNat ∧
      tree.capHeight = config.capHeight.toNat := by
  rcases exists_leaves c s h hw hcolumns hrate config with ⟨leaves, hleaves, hends⟩
  rcases MerkleTree.exists_two_pow h (s.branch 4) hleaves hcap with ⟨tree, htree, -, -⟩
  rcases MerkleTree.over_of_ofLeafDigests h (s.branch 4) htree with ⟨last, -, hover, -, hcapHeight⟩
  rw [htree] at hends
  refine ⟨_, tree, hends, hover, ?_, hcapHeight⟩
  rw [MerkleTree.height_of_ofLeafDigests h (s.branch 4) htree, hleaves, log2Ceil_two_pow]

/-- Columns are interpolated before they are extended, so a height that is not
    usable is found there. -/
theorem commitTrace_ends_of_height {height : Nat} {error : TransformError} (hw : w.Faithful)
    (hcolumns : ColumnsOfHeight columns height) (hdomain : domainLog2 height = .error error) :
    Timed.Ends (commitTrace h ⟨.of c, s⟩ w columns rateBits config)
      (.error (.transform error)) := by
  have hends := commitTrace_ends h (e := ⟨.of c, s⟩) hw hcolumns.nonempty hcolumns.size_eq
    rateBits config
  rw [interpolateColumns_of_refused _ hcolumns.nonempty hcolumns.size_eq
    (fun e values hvalues => ifft_of_refused e (hvalues ▸ hdomain))] at hends
  exact hends

/-- A height that is usable may still leave no room for the rate. -/
theorem commitTrace_ends_of_rate (hw : w.Faithful) (hcolumns : ColumnsOfHeight columns (2 ^ k))
    (hk : k ≤ 32) (hrate : 32 < k + rateBits.toNat) (hword : rateBits.toNat < 2 ^ 63) :
    Timed.Ends (commitTrace h ⟨.of c, s⟩ w columns rateBits config)
      (.error (.transform (.domainTooLarge (k + rateBits.toNat) maxLog2Size))) := by
  have hfits : k + rateBits.toNat < UInt64.size := by
    have hsize : UInt64.size = 2 ^ 63 + 2 ^ 63 := by decide
    omega
  rcases exists_polynomials c (s.branch 0) hk hcolumns with
    ⟨polynomials, hinterpolate, hpolynomials⟩
  have hextend := ldeBatch_of_refused ⟨.of c, s.branch 1⟩ hpolynomials.nonempty
    hpolynomials.size_eq (fun e values hvalues => lde_of_large e hk hvalues hrate hfits)
  have hends := commitTrace_ends h (e := ⟨.of c, s⟩) hw hcolumns.nonempty hcolumns.size_eq
    rateBits config
  simp only [Engine.branch, hinterpolate, hextend, Except.mapError, ok_bind] at hends
  exact hends

theorem commitTrace_ends_of_none (e : Engine) (hnone : columns.size = 0) :
    Timed.Ends (commitTrace h e w columns rateBits config) (.error (.trace .noColumns)) := by
  have hfirst : columns[0]? = none := Array.getElem?_eq_none (by omega)
  unfold commitTrace
  simp only [hfirst]
  exact (Timed.ends_throw _).bind_of_error _

theorem commitTrace_ends_of_unequal (e : Engine) (hsome : 0 < columns.size)
    (hunequal : ¬ ∃ height, ColumnsOfHeight columns height) :
    Timed.Ends (commitTrace h e w columns rateBits config) (.error (.trace .unequalColumns)) := by
  have hfirst : columns[0]? = some columns[0] := Array.getElem?_eq_getElem hsome
  have hother : columns.any (·.size != columns[0].size) = true := by
    rw [Array.any_eq_true]
    by_contra hall
    refine hunequal ⟨columns[0].size, hsome, fun i hi => ?_⟩
    by_contra hne
    exact hall ⟨i, hi, bne_iff_ne.mpr hne⟩
  unfold commitTrace
  simp only [hfirst, pure_bind, if_pos hother]
  exact (Timed.ends_throw _).bind_of_error _

/-- A cause is what the run ends with. -/
theorem commitTrace_ends_of_refusal (hw : w.Faithful) (hword : rateBits.toNat < 2 ^ 63)
    {failure : Failure} (hrefusal : TraceRefusal columns rateBits config failure) :
    Timed.Ends (commitTrace h ⟨.of c, s⟩ w columns rateBits config) (.error failure) := by
  cases hrefusal with
  | noColumns hnone => exact commitTrace_ends_of_none h _ hnone
  | unequalColumns hsome hunequal => exact commitTrace_ends_of_unequal h _ hsome hunequal
  | invalidHeight hcolumns hpower =>
      exact commitTrace_ends_of_height c s h hw hcolumns (domainLog2_of_not_two_pow hpower)
  | tooHigh hcolumns hk =>
      exact commitTrace_ends_of_height c s h hw hcolumns (domainLog2_of_large hk)
  | rateTooLarge hcolumns hk hrate =>
      exact commitTrace_ends_of_rate c s h hw hcolumns hk hrate hword
  | capTooHigh hcolumns hrate hcap =>
      rcases exists_leaves c s h hw hcolumns hrate config with ⟨leaves, hleaves, hends⟩
      rw [MerkleTree.ofLeafDigests_of_cap_lt h (s.branch 4) hleaves hcap] at hends
      exact hends

theorem commitTrace_ends_of_committable (hw : w.Faithful)
    (hcommittable : Committable columns rateBits config) :
    ∃ tree, Timed.Ends (commitTrace h ⟨.of c, s⟩ w columns rateBits config) (.ok tree) := by
  rcases hcommittable with ⟨k, hcolumns, hrate, hcap⟩
  rcases exists_commitTrace c s h hw hcolumns hrate hcap with ⟨_, tree, hreturns, _⟩
  exact ⟨tree, hreturns⟩

end Runs

section Exclusive

variable {columns : Array (Array Element)} {rateBits : UInt64} {config : MerkleConfig}
  {failure failure' : Failure}

/-- There is one first cause: a run without a clock ends with it, and ends in one way. -/
theorem TraceRefusal.unique (hword : rateBits.toNat < 2 ^ 63)
    (h : TraceRefusal columns rateBits config failure)
    (h' : TraceRefusal columns rateBits config failure') : failure = failure' := by
  have hends := commitTrace_ends_of_refusal .scalar .sequential Hasher.poseidon
    Stopwatch.still_faithful hword h
  have hends' := commitTrace_ends_of_refusal .scalar .sequential Hasher.poseidon
    Stopwatch.still_faithful hword h'
  exact Except.error.inj (hends.unique hends')

theorem TraceRefusal.not_committable (hword : rateBits.toNat < 2 ^ 63)
    (h : TraceRefusal columns rateBits config failure) : ¬ Committable columns rateBits config := by
  intro hcommittable
  have hends := commitTrace_ends_of_refusal .scalar .sequential Hasher.poseidon
    Stopwatch.still_faithful hword h
  rcases commitTrace_ends_of_committable .scalar .sequential Hasher.poseidon
    Stopwatch.still_faithful hcommittable with ⟨tree, hends'⟩
  cases hends.unique hends'

end Exclusive

/-- A run over any trace, at any rate below `2 ^ 63`, ends with a tree exactly if
    everything holds that a commitment asks for, and otherwise with the first thing
    that does not. It never ends with a broken contract, nor because of the number
    of leaves. -/
theorem commitTrace_outcome (c : Capability) (s : Schedule) {m : Type → Type} [Monad m]
    [LawfulMonad m] {δ : Type} (h : Hasher δ) {w : Stopwatch m} (hw : w.Faithful)
    (columns : Array (Array Element)) {rateBits : UInt64} (hword : rateBits.toNat < 2 ^ 63)
    (config : MerkleConfig) :
    ∃ result, Timed.Ends (commitTrace h ⟨.of c, s⟩ w columns rateBits config) result ∧
      ((∃ tree, result = .ok tree) ↔ Committable columns rateBits config) ∧
      (∀ failure, result = .error failure ↔ TraceRefusal columns rateBits config failure) ∧
      ∀ failure, result = .error failure → ¬ failure.IsViolation ∧
        (∀ count, failure ≠ .merkle (.invalidLeafCount count)) ∧
        failure ≠ .merkle .emptyCommitment := by
  rcases committable_or_refusal columns rateBits config with hcommittable | ⟨cause, hcause⟩
  · rcases commitTrace_ends_of_committable c s h hw hcommittable with ⟨tree, hends⟩
    refine ⟨_, hends, iff_of_true ⟨tree, rfl⟩ hcommittable, fun failure => ?_, nofun⟩
    exact iff_of_false nofun (fun hrefusal => hrefusal.not_committable hword hcommittable)
  · refine ⟨_, commitTrace_ends_of_refusal c s h hw hword hcause,
      iff_of_false nofun (hcause.not_committable hword), fun failure => ?_, ?_⟩
    · rw [Except.error.injEq]
      constructor
      · rintro rfl
        exact hcause
      · exact hcause.unique hword
    · rintro failure ⟨⟩
      exact hcause.not_isViolation

/-- Two columns of two values. The field has room for a rate of one, and the cap is
    the root. For a rate of 32 it has not, whatever cap is asked for. -/
theorem commitTrace_outcome_two :
    (∃ tree, Timed.Ends (commitTrace (Hasher.keccak 32) ⟨.of .avx2, .backward 2⟩ .still
      #[#[1, 0], #[Element.two, 1]] 1 .standard) (.ok tree)) ∧
    Timed.Ends (commitTrace (Hasher.keccak 32) ⟨.of .avx2, .backward 2⟩ .still
      #[#[1, 0], #[Element.two, 1]] 32 ⟨40, .reject⟩)
        (.error (.transform (.domainTooLarge 33 32))) := by
  have hcolumns : ColumnsOfHeight #[#[1, 0], #[Element.two, 1]] (2 ^ 1) :=
    ⟨by decide, by decide⟩
  constructor
  · rcases commitTrace_outcome .avx2 (.backward 2) (Hasher.keccak 32) Stopwatch.still_faithful
      #[#[1, 0], #[Element.two, 1]] (by decide : (1 : UInt64).toNat < 2 ^ 63) .standard with
      ⟨result, hends, hok, _⟩
    rcases hok.mpr ⟨1, hcolumns, by decide, by decide⟩ with ⟨tree, rfl⟩
    exact ⟨tree, hends⟩
  · rcases commitTrace_outcome .avx2 (.backward 2) (Hasher.keccak 32) Stopwatch.still_faithful
      #[#[1, 0], #[Element.two, 1]] (by decide : (32 : UInt64).toNat < 2 ^ 63) ⟨40, .reject⟩ with
      ⟨result, hends, _, herror, _⟩
    have hrefused := (herror _).mpr (.rateTooLarge hcolumns (by decide) (by decide))
    rw [hrefused] at hends
    exact hends

end TraceCommit
