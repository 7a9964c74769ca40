import TraceCommit.Proofs.Commitment
import TraceCommit.Proofs.Transform.Refusal

/-!
# Independence of the Schedule

Whether kernels fork, over how many workers, and in which order the tasks of a
fork run: none of it can be seen in a result. Tasks without effects leave the
same behind in every order, and so do tasks that may be refused if all of them
would be refused for the same reason. Columns of one height are such tasks, and
a commitment checks their heights before it forks over them. The tiles of a matrix,
the rows to be hashed and the nodes of a level ask for places, and a place that is
missing is refused for that reason alone.

## Main definitions

* `KernelsAgree`: The kernels that fork give the same under two schedules.
* `ResultsAgree`: So does all that is made of them.

## Theorems

* `Matrix.ofColumns_congr`, `hashRows_congr`, `compressLevel_congr`: Places that are
  there, or are not.
* `fft_congr`, `ifft_congr`, `lde_congr`: Transforms, refused or not.
* `interpolateColumns_congr`, `ldeBatch_congr`: Columns of one height.
* `commitTrace_congr`: Traces, whatever is wrong with them.
* `schedules_agree`: Any two schedules give the same.
-/

namespace TraceCommit

variable (s s' : Schedule) {δ : Type} (h : Hasher δ)

/-- Columns of one height have all the cells that are copied, and others are refused
    before anything is. -/
theorem Matrix.ofColumns_congr {α : Type} [Item α] (columns : Array (Array α)) :
    ofColumns s columns = ofColumns s' columns := by
  rcases ofColumns_cases columns with ⟨-, hrefused⟩ | ⟨-, hrefused⟩ | ⟨-, m, hok⟩
  · rw [hrefused, hrefused]
  · rw [hrefused, hrefused]
  · rw [hok, hok]

/-- Rows that are not there are all refused for the same reason. -/
theorem hashRows_congr (count : Nat) (row : Nat → Option (Array Element)) :
    hashRows h s count row = hashRows h s' count row := by
  refine s.collect_congr s' _ _ (e := .outOfRange) (fun i _ e hrefused => ?_)
  cases hrow : row i with
  | none =>
      simp only [hrow] at hrefused
      exact (Except.error.inj hrefused).symm
  | some values =>
      simp only [hrow] at hrefused
      cases hrefused

theorem hashMatrixRows_congr (rows : Matrix Element) :
    hashMatrixRows h s rows = hashMatrixRows h s' rows :=
  hashRows_congr s s' h _ _

/-- The lengths are compared before the parents are made, and children of the right
    number are all there. -/
theorem compressLevel_congr (children parents : Array δ) :
    compressLevel h s children parents = compressLevel h s' children parents := by
  by_cases hsizes : children.size = 2 * parents.size
  · have hnode (j : Nat) (hj : j < children.size) :
        children[j]? = some (children.getD j h.zero) := by
      rw [Array.getElem?_eq_getElem hj, ← Array.getElem_eq_getD (h := hj)]
    rw [compressLevel_eq h s hsizes _ hnode, compressLevel_eq h s' hsizes _ hnode]
  · unfold compressLevel
    rw [if_pos hsizes, if_pos hsizes]

theorem MerkleTree.ofLeafDigests_congr (leaves : Array δ) (config : MerkleConfig) :
    ofLeafDigests h s leaves config = ofLeafDigests h s' leaves config := by
  -- Every level is made of the one below it, by a fork of its own.
  have hlevel : buildLevel h s = buildLevel h s' := by
    funext leafCount digests level
    simp only [buildLevel, compressLevel_congr (s.branch level) (s'.branch level)]
  simp only [ofLeafDigests, buildLevels, hlevel]

variable (c : Capability)

/-- A buffer of whole blocks, with a twiddle for each butterfly of a block. -/
theorem butterflyLayer_congr {twiddles values : Array Element} {half blocks : Nat}
    (hhalf : 0 < half) (hvalues : values.size = blocks * (2 * half))
    (htw : twiddles.size = half) :
    butterflyLayer ⟨.of c, s⟩ twiddles (2 * half) values =
      butterflyLayer ⟨.of c, s'⟩ twiddles (2 * half) values := by
  rw [butterflyLayer_eq c s hhalf hvalues htw, butterflyLayer_eq c s' hhalf hvalues htw]

/-- A block is refused for the lengths of its operands, if at all. -/
theorem butterflyBlock_error {twiddles block : Array Element} {broken : Violation}
    (hrefused : butterflyBlock (.of c) twiddles block = .error broken) :
    broken = .operandLengths .butterflies := by
  have hhalf : block.size / 2 ≤ block.size := Nat.div_le_self _ _
  rw [Kernels.of_eq] at hrefused
  unfold butterflyBlock at hrefused
  simp only [splitAt_of_le hhalf, ok_bind] at hrefused
  by_cases hnarrow : block.size / 2 < kernelMinimumHalf
  · simp only [if_pos hnarrow, pure_bind] at hrefused
    cases hrefused
  · simp only [if_neg hnarrow, Kernels.scalar, requireSameLengths, requireSameLength] at hrefused
    -- The kernel compares two pairs of lengths and goes on if both agree.
    split_ifs at hrefused
    · cases hrefused
    · cases hrefused
      rfl
    · cases hrefused
      rfl
    · cases hrefused
      rfl

/-- Any buffer at all, if each block is a task. -/
theorem butterflyLayer_congr_of_blocks (twiddles values : Array Element) (m : Nat)
    (hblocks : s.forksOver values.size = true → s.workers ≤ values.size / m) :
    butterflyLayer ⟨.of c, s⟩ twiddles m values =
      butterflyLayer ⟨.of c, .sequential⟩ twiddles m values := by
  have hplain : Schedule.sequential.forksOver values.size = false := rfl
  have hwhole : (s.forksOver values.size && decide (values.size / m < s.workers)) = false := by
    cases hforked : s.forksOver values.size with
    | false => rfl
    | true => simpa using hblocks hforked
  simp only [butterflyLayer, hwhole, hplain, Bool.false_and, Bool.false_eq_true, if_false]
  rw [s.update_congr .sequential _ false]
  intro i x broken _ hrefused
  exact butterflyBlock_error c hrefused

theorem fft_congr (values : Array Element) : fft ⟨.of c, s⟩ values = fft ⟨.of c, s'⟩ values := by
  cases hdomain : domainLog2 values.size with
  | ok k =>
      rcases domainLog2_eq_ok_iff.mp hdomain with ⟨hsize, hk⟩
      rw [fft_eq c s hk hsize, fft_eq c s' hk hsize]
  | error error => rw [fft_of_refused _ hdomain, fft_of_refused _ hdomain]

theorem ifft_congr (values : Array Element) :
    ifft ⟨.of c, s⟩ values = ifft ⟨.of c, s'⟩ values := by
  rcases ifft_ok_or_refused values.size with ⟨k, hk, hsize⟩ | ⟨error, hrefused⟩
  · rw [ifft_eq c s hk hsize, ifft_eq c s' hk hsize]
  · rw [hrefused _ values rfl, hrefused _ values rfl]

theorem lde_congr (coefficients : Array Element) (rateBits : UInt64) :
    lde ⟨.of c, s⟩ coefficients rateBits = lde ⟨.of c, s'⟩ coefficients rateBits := by
  rcases lde_ok_or_refused coefficients.size rateBits with ⟨k, hsize, hroom⟩ | ⟨error, hrefused⟩
  · rw [lde_eq c s hsize hroom, lde_eq c s' hsize hroom]
  · rw [hrefused _ coefficients rfl, hrefused _ coefficients rfl]

variable {columns : Array (Array Element)} {size : Nat}

/-- Columns of one height are interpolated or refused together. -/
theorem interpolateColumns_congr (hcolumns : 0 < columns.size)
    (hsize : ∀ i (hi : i < columns.size), columns[i].size = size) :
    interpolateColumns ⟨.of c, s⟩ columns = interpolateColumns ⟨.of c, s'⟩ columns := by
  rcases ifft_ok_or_refused size with ⟨k, hk, rfl⟩ | ⟨error, hrefused⟩
  · rw [interpolateColumns_eq c s hk hsize, interpolateColumns_eq c s' hk hsize]
  · rw [interpolateColumns_of_refused _ hcolumns hsize hrefused,
      interpolateColumns_of_refused _ hcolumns hsize hrefused]

/-- Polynomials of one length are extended or refused together. -/
theorem ldeBatch_congr (hcolumns : 0 < columns.size)
    (hsize : ∀ i (hi : i < columns.size), columns[i].size = size) (rateBits : UInt64) :
    ldeBatch ⟨.of c, s⟩ columns rateBits = ldeBatch ⟨.of c, s'⟩ columns rateBits := by
  rcases lde_ok_or_refused size rateBits with ⟨k, rfl, hroom⟩ | ⟨error, hrefused⟩
  · rw [ldeBatch_eq c s hsize hroom, ldeBatch_eq c s' hsize hroom]
  · rw [ldeBatch_of_refused _ hcolumns hsize hrefused,
      ldeBatch_of_refused _ hcolumns hsize hrefused]

/-- What columns of one height are interpolated to has one length. -/
theorem size_of_interpolateColumns (hcolumns : 0 < columns.size)
    (hsize : ∀ i (hi : i < columns.size), columns[i].size = size)
    {coefficients : Array (Array Element)}
    (hok : interpolateColumns ⟨.of c, s⟩ columns = .ok coefficients) :
    coefficients.size = columns.size ∧
      ∀ i (hi : i < coefficients.size), coefficients[i].size = size := by
  rcases ifft_ok_or_refused size with ⟨k, hk, rfl⟩ | ⟨error, hrefused⟩
  · rw [interpolateColumns_eq c s hk hsize] at hok
    cases hok
    refine ⟨Array.size_map, fun i hi => ?_⟩
    rw [Array.getElem_map, size_interpolation]
  · rw [interpolateColumns_of_refused _ hcolumns hsize hrefused] at hok
    cases hok

variable {m : Type → Type} [Monad m] [LawfulMonad m]

/-- A commitment looks at the heights of the columns before it forks over them,
    so it is refused for the same reason or makes the same tree. -/
theorem commitTrace_congr {w : Stopwatch m} (hw : w.Faithful) (columns : Array (Array Element))
    (rateBits : UInt64) (config : MerkleConfig) :
    commitTrace h ⟨.of c, s⟩ w columns rateBits config =
      commitTrace h ⟨.of c, s'⟩ w columns rateBits config := by
  unfold commitTrace
  cases hfirst : columns[0]? with
  | none => simp only [Timed.throw_bind]
  | some column =>
      simp only [pure_bind]
      by_cases hunequal : (columns.any fun x => x.size != column.size) = true
      · simp only [if_pos hunequal, Timed.throw_bind]
      · have hcolumns : 0 < columns.size := (Array.getElem?_eq_some_iff.mp hfirst).1
        have hsize : ∀ i (hi : i < columns.size), columns[i].size = column.size := by
          simpa using hunequal
        have hinterpolate : interpolateColumns (Engine.branch ⟨.of c, s⟩ 0) columns =
            interpolateColumns (Engine.branch ⟨.of c, s'⟩ 0) columns :=
          interpolateColumns_congr (s.branch 0) (s'.branch 0) c hcolumns hsize
        simp only [if_neg hunequal, hinterpolate]
        -- What comes of the columns has one length again, and is not empty.
        apply Timed.phaseOrFail_bind_congr hw
        intro coefficients hok
        rcases size_of_interpolateColumns (s'.branch 0) c hcolumns hsize hok with ⟨hcount, hlength⟩
        rw [← hcount] at hcolumns
        have hextend : ldeBatch (Engine.branch ⟨.of c, s⟩ 1) coefficients rateBits =
            ldeBatch (Engine.branch ⟨.of c, s'⟩ 1) coefficients rateBits :=
          ldeBatch_congr (s.branch 1) (s'.branch 1) c hcolumns hlength rateBits
        simp only [Engine.branch] at hextend ⊢
        simp only [hextend, Matrix.ofColumns_congr (s.branch 2) (s'.branch 2),
          hashMatrixRows_congr (s.branch 3) (s'.branch 3),
          MerkleTree.ofLeafDigests_congr (s.branch 4) (s'.branch 4)]

/-- The kernels that fork give the same under two schedules. -/
structure KernelsAgree (h : Hasher δ) (c : Capability) (s s' : Schedule) : Prop where
  /-- A layer over whole blocks, with a twiddle for each butterfly of a block. -/
  layer : ∀ {twiddles values : Array Element} {half blocks : Nat}, 0 < half →
    values.size = blocks * (2 * half) → twiddles.size = half →
      butterflyLayer ⟨.of c, s⟩ twiddles (2 * half) values =
        butterflyLayer ⟨.of c, s'⟩ twiddles (2 * half) values
  /-- A layer over anything at all, if it does not split its blocks. -/
  blocks : ∀ (twiddles values : Array Element) (m : Nat),
    (s.forksOver values.size = true → s.workers ≤ values.size / m) →
      butterflyLayer ⟨.of c, s⟩ twiddles m values =
        butterflyLayer ⟨.of c, .sequential⟩ twiddles m values
  /-- The transpose of columns. -/
  ofColumns : ∀ {α : Type} [Item α] (columns : Array (Array α)),
    Matrix.ofColumns s columns = Matrix.ofColumns s' columns
  /-- The digests of rows. -/
  hashRows : ∀ (count : Nat) (row : Nat → Option (Array Element)),
    hashRows h s count row = hashRows h s' count row
  /-- A level of a tree. -/
  compressLevel : ∀ (children parents : Array δ),
    compressLevel h s children parents = compressLevel h s' children parents

/-- What the kernels are put together to is the same under two schedules, and
    refused for the same reasons. -/
structure ResultsAgree (h : Hasher δ) (w : Stopwatch m) (c : Capability) (s s' : Schedule) :
    Prop where
  /-- Evaluation. -/
  fft : ∀ values, fft ⟨.of c, s⟩ values = fft ⟨.of c, s'⟩ values
  /-- Interpolation. -/
  ifft : ∀ values, ifft ⟨.of c, s⟩ values = ifft ⟨.of c, s'⟩ values
  /-- Extension. -/
  lde : ∀ coefficients rateBits,
    lde ⟨.of c, s⟩ coefficients rateBits = lde ⟨.of c, s'⟩ coefficients rateBits
  /-- The rows of columns. -/
  transpose : ∀ {α : Type} [Item α] (columns : Array (Array α)),
    transpose s columns = transpose s' columns
  /-- The tree over rows. -/
  ofRows : ∀ rows config, MerkleTree.ofRows h s rows config = MerkleTree.ofRows h s' rows config
  /-- The commitment to a trace. -/
  commitTrace : ∀ columns rateBits config,
    commitTrace h ⟨.of c, s⟩ w columns rateBits config =
      commitTrace h ⟨.of c, s'⟩ w columns rateBits config

/-- Neither the switch nor the number of workers nor the order of the tasks can
    be seen in what the kernels leave behind or in what is made of it. -/
theorem schedules_agree (h : Hasher δ) (c : Capability) (s s' : Schedule) {w : Stopwatch m}
    (hw : w.Faithful) : KernelsAgree h c s s' ∧ ResultsAgree h w c s s' := by
  constructor
  · exact {
      layer := butterflyLayer_congr s s' c
      blocks := butterflyLayer_congr_of_blocks s c
      ofColumns := Matrix.ofColumns_congr s s'
      hashRows := hashRows_congr s s' h
      compressLevel := compressLevel_congr s s' h }
  · exact {
      fft := fft_congr s s' c
      ifft := ifft_congr s s' c
      lde := lde_congr s s' c
      transpose := fun columns => by unfold transpose; rw [Matrix.ofColumns_congr s s']
      ofRows := fun rows config => by
        rw [MerkleTree.ofRows_eq, MerkleTree.ofRows_eq, MerkleTree.ofLeafDigests_congr s s']
      commitTrace := commitTrace_congr s s' h c hw }

/-- A single block of which two workers do two parts each, the last one first,
    and a commitment. -/
theorem schedules_agree_backward :
    butterflyLayer ⟨.of .avx2, .backward 2⟩ (Array.replicate 8192 1) (2 * 8192)
        (Array.replicate 16384 Element.two) =
      butterflyLayer ⟨.of .avx2, .sequential⟩ (Array.replicate 8192 1) (2 * 8192)
        (Array.replicate 16384 Element.two) ∧
    commitTrace (Hasher.keccak 32) ⟨.of .avx2, .backward 2⟩ .still
        #[#[1, 0], #[Element.two, 1]] 1 .standard =
      commitTrace (Hasher.keccak 32) ⟨.of .avx2, .sequential⟩ .still
        #[#[1, 0], #[Element.two, 1]] 1 .standard := by
  rcases schedules_agree (Hasher.keccak 32) .avx2 (.backward 2) .sequential
    Stopwatch.still_faithful with ⟨hkernels, hresults⟩
  have hvalues : (Array.replicate 16384 Element.two).size = 1 * (2 * 8192) :=
    Array.size_replicate
  exact ⟨hkernels.layer (by decide) hvalues Array.size_replicate, hresults.commitTrace _ _ _⟩

end TraceCommit
