import TraceCommit.Proofs.Kernel.Lanes

/-!
# All Kernels Compute Alike

The batch kernels of every capability are the ones that work an element at a
time, in what they compute and in what they refuse. Where a lane computes what
a single word does, a register computes a stretch of the result, the registers
one after another compute its full stretches, and the words left over complete
it. What the registers leave behind is canonical, so turning words back into
elements changes no bit.

## Main definitions

* `LaneArithmetic.Lanewise`: Lanes compute what single words do.
* `LaneArithmetic.Exact`: Kernels on words give the words of the results.
* `Kernels.Agrees`: Two implementations compute, and refuse, the same.
* `Kernels.ChecksLengths`: Operands of different lengths are refused, and only
  those.

## Theorems

* `LaneArithmetic.zipWords_eq`, `LaneArithmetic.Lanewise.scaleWords_eq`,
  `LaneArithmetic.Lanewise.butterflyWords_eq`: Register by register is word by
  word.
* `Kernels.of_eq`: The kernels of all capabilities are the same.
* `packed_kernels_exact`: The packed kernels agree with the scalar ones.
-/

namespace TraceCommit

namespace LaneArithmetic

variable {n : Nat}

/-- Stretches of a sequence, put one behind another. -/
theorem fold_registers_eq (out : Array UInt64) (register : Nat → Lanes n) (full : Nat)
    (h : ∀ i < full, (register i).toArray = out.extract (i * n) ((i + 1) * n)) :
    full.fold (fun i _ acc => acc ++ (register i).toArray) #[] = out.extract 0 (full * n) := by
  induction full with
  | zero => rw [Nat.fold_zero, Nat.zero_mul, Array.extract_zero]
  | succ full ih =>
      have hle : full * n ≤ (full + 1) * n := Nat.mul_le_mul_right n (Nat.le_succ full)
      rw [Nat.fold_succ, ih (fun i hi => h i (by omega)), h full (Nat.lt_succ_self full),
        Array.extract_append_extract, Nat.min_eq_left (Nat.zero_le _), Nat.max_eq_right hle]

/-- Two sequences made side by side are made each by itself. -/
theorem fold_pair_eq (first second : Nat → Array UInt64) (full : Nat) :
    full.fold (fun i _ (acc : Array UInt64 × Array UInt64) =>
      (acc.1 ++ first i, acc.2 ++ second i)) (#[], #[]) =
      (full.fold (fun i _ acc => acc ++ first i) #[],
        full.fold (fun i _ acc => acc ++ second i) #[]) := by
  induction full with
  | zero => simp only [Nat.fold_zero]
  | succ full ih => rw [Nat.fold_succ, Nat.fold_succ, Nat.fold_succ, ih]

/-- The full registers and the words behind them make up the whole. -/
theorem extract_append_rest {α : Type} (out : Array α) {m : Nat} (h : m ≤ out.size) :
    out.extract 0 m ++ out.extract m = out := by
  rw [Array.extract_append_extract, Nat.min_eq_left (Nat.zero_le m), Nat.max_eq_right h,
    Array.extract_size]

theorem getElem_load (words : Array UInt64) (offset i : Nat) (hi : i < n)
    (h : offset + i < words.size) : (Lanes.load words offset : Lanes n)[i] = words[offset + i] := by
  unfold Lanes.load
  rw [Vector.getElem_ofFn, Array.getElem_eq_getD]

variable {word : UInt64 → UInt64 → UInt64} {lanes : Lanes n → Lanes n → Lanes n}

/-- A full register ends inside the sequence. -/
theorem register_end_le {size i : Nat} (hi : i < size / n) : i * n + n ≤ size := by
  rw [← Nat.succ_mul]
  exact (Nat.mul_le_mul_right n hi).trans (Nat.div_mul_le_self size n)

/-- Combining two registers is loading the combined words. -/
theorem lanes_load_load (hlanes : ∀ a b i (hi : i < n), (lanes a b)[i] = word a[i] b[i])
    (lhs rhs : Array UInt64) (hsize : lhs.size = rhs.size) (i : Nat) (hi : i < lhs.size / n) :
    lanes (.load lhs (i * n)) (.load rhs (i * n)) =
      .load (Array.zipWith word lhs rhs) (i * n) := by
  have hend := register_end_le hi
  refine Vector.ext (fun j hj => ?_)
  rw [hlanes, getElem_load _ _ _ _ (by omega), getElem_load _ _ _ _ (by omega),
    getElem_load _ _ _ _ (by rw [Array.size_zipWith]; omega), Array.getElem_zipWith]

/-- A loaded register is a stretch of the sequence. -/
theorem toArray_load (words : Array UInt64) (i : Nat) (hi : i < words.size / n) :
    (Lanes.load words (i * n) : Lanes n).toArray = words.extract (i * n) ((i + 1) * n) := by
  have hend := register_end_le hi
  rw [Nat.succ_mul]
  refine Array.ext ?_ (fun j h1 h2 => ?_)
  · rw [Array.size_extract, Vector.size_toArray]
    omega
  · rw [Vector.size_toArray] at h1
    rw [Array.getElem_extract, Vector.getElem_toArray, getElem_load _ _ _ _ (by omega)]

/-- What is left over behind the full registers is combined word by word. -/
theorem zipWith_extract_rest (lhs rhs : Array UInt64) (hsize : lhs.size = rhs.size) (m : Nat) :
    Array.zipWith word (lhs.extract m) (rhs.extract m) =
      (Array.zipWith word lhs rhs).extract m := by
  rw [Array.extract_zipWith, Array.size_zipWith, ← hsize, Nat.min_self]

theorem size_zipWith_of_eq {f : UInt64 → UInt64 → UInt64} {lhs rhs : Array UInt64}
    (hsize : lhs.size = rhs.size) : (Array.zipWith f lhs rhs).size = lhs.size := by
  rw [Array.size_zipWith, ← hsize, Nat.min_self]

/-- Register by register is word by word. -/
theorem zipWords_eq (hlanes : ∀ a b i (hi : i < n), (lanes a b)[i] = word a[i] b[i])
    (lhs rhs : Array UInt64) (hsize : lhs.size = rhs.size) :
    zipWords lanes word lhs rhs = Array.zipWith word lhs rhs := by
  have hout : (Array.zipWith word lhs rhs).size = lhs.size := size_zipWith_of_eq hsize
  simp only [zipWords]
  rw [fold_registers_eq (Array.zipWith word lhs rhs), zipWith_extract_rest lhs rhs hsize,
    extract_append_rest]
  · rw [hout]
    exact Nat.div_mul_le_self lhs.size n
  · intro i hi
    rw [lanes_load_load hlanes lhs rhs hsize i hi, toArray_load _ _ (by rw [hout]; exact hi)]

/-- Lane arithmetic that computes in every lane what single words do. -/
structure Lanewise (k : LaneArithmetic n) : Prop where
  add : ∀ a b i (hi : i < n), (k.add a b)[i] = Word.add a[i] b[i]
  sub : ∀ a b i (hi : i < n), (k.sub a b)[i] = Word.sub a[i] b[i]
  mul : ∀ a b i (hi : i < n), (k.mul a b)[i] = Word.mul a[i] b[i]

variable {k : LaneArithmetic n}

/-- A register with one word in all lanes scales every word by it. -/
theorem Lanewise.scaleWords_eq (hk : k.Lanewise) (values : Array UInt64) (scalar : UInt64) :
    k.scaleWords values scalar = values.map (Word.mul · scalar) := by
  -- What one register contributes.
  have hregister (i : Nat) (hi : i < values.size / n) :
      k.mul (.load values (i * n)) (.splat scalar) =
        .load (values.map (Word.mul · scalar)) (i * n) := by
    have hend := register_end_le hi
    refine Vector.ext (fun j hj => ?_)
    rw [hk.mul, getElem_load _ _ _ _ (by omega), Lanes.getElem_splat,
      getElem_load _ _ _ _ (by rw [Array.size_map]; omega), Array.getElem_map]
  simp only [scaleWords]
  rw [fold_registers_eq (values.map (Word.mul · scalar)), ← Array.map_extract, ← Array.map_append,
    extract_append_rest values (Nat.div_mul_le_self values.size n)]
  intro i hi
  rw [hregister i hi, toArray_load _ _ (by rw [Array.size_map]; exact hi)]

/-- Butterflies by registers are butterflies word by word. -/
theorem Lanewise.butterflyWords_eq (hk : k.Lanewise) (lo hi twiddles : Array UInt64)
    (hhi : lo.size = hi.size) (htw : lo.size = twiddles.size) :
    k.butterflyWords lo hi twiddles =
      (Array.zipWith Word.add lo (Array.zipWith Word.mul hi twiddles),
        Array.zipWith Word.sub lo (Array.zipWith Word.mul hi twiddles)) := by
  have hhitw : hi.size = twiddles.size := hhi.symm.trans htw
  -- The products are as many as the sums and differences they go into.
  have hturned : lo.size = (Array.zipWith Word.mul hi twiddles).size := by
    rw [size_zipWith_of_eq hhitw, hhi]
  have hle : lo.size / n * n ≤ lo.size := Nat.div_mul_le_self lo.size n
  -- What one register contributes to either half.
  have hregister (word : UInt64 → UInt64 → UInt64) (lanes : Lanes n → Lanes n → Lanes n)
      (hlanes : ∀ a b i (hi : i < n), (lanes a b)[i] = word a[i] b[i]) (i : Nat)
      (hlt : i < lo.size / n) :
      (lanes (.load lo (i * n)) (k.mul (.load hi (i * n)) (.load twiddles (i * n)))).toArray =
        (Array.zipWith word lo (Array.zipWith Word.mul hi twiddles)).extract
          (i * n) ((i + 1) * n) := by
    rw [lanes_load_load hk.mul hi twiddles hhitw i (hhi ▸ hlt),
      lanes_load_load hlanes lo _ hturned i hlt,
      toArray_load _ _ (by rw [size_zipWith_of_eq hturned]; exact hlt)]
  simp only [butterflyWords]
  rw [fold_pair_eq, fold_registers_eq _ _ _ (hregister _ _ hk.add),
    fold_registers_eq _ _ _ (hregister _ _ hk.sub), zipWith_extract_rest hi twiddles hhitw,
    zipWith_extract_rest lo _ hturned, zipWith_extract_rest lo _ hturned,
    extract_append_rest _ (by rw [size_zipWith_of_eq hturned]; exact hle),
    extract_append_rest _ (by rw [size_zipWith_of_eq hturned]; exact hle)]

/-- A canonical word is the word of its own element. -/
theorem ofWord_val (a : Element) : Element.ofWord a.val = a := by
  cases a with
  | mk val hval =>
      unfold Element.ofWord
      congr 1
      exact Word.canonicalize_of_lt hval

theorem elementsOf_wordsOf (xs : Array Element) : elementsOf (wordsOf xs) = xs := by
  have hid : Element.ofWord ∘ Element.val = id := funext ofWord_val
  unfold elementsOf wordsOf
  rw [Array.map_map, hid, Array.map_id]

theorem size_wordsOf (xs : Array Element) : (wordsOf xs).size = xs.size := Array.size_map

theorem size_wordsOf_eq {lhs rhs : Array Element} (h : lhs.size = rhs.size) :
    (wordsOf lhs).size = (wordsOf rhs).size := by
  rw [size_wordsOf, size_wordsOf, h]

/-- An operation on the words of elements is the operation on the elements. -/
theorem zipWith_wordsOf {word : UInt64 → UInt64 → UInt64} (op : Element → Element → Element)
    (h : ∀ a b : Element, word a.val b.val = (op a b).val) (lhs rhs : Array Element) :
    Array.zipWith word (wordsOf lhs) (wordsOf rhs) = wordsOf (Array.zipWith op lhs rhs) := by
  unfold wordsOf
  rw [Array.zipWith_map, Array.map_zipWith]
  congr 1
  funext a b
  exact h a b

/-- Lane arithmetic whose kernels, run on the words of elements, leave the words
    of the results behind, bit for bit. -/
structure Exact (k : LaneArithmetic n) : Prop where
  add : ∀ lhs rhs : Array Element, lhs.size = rhs.size →
    k.addWords (wordsOf lhs) (wordsOf rhs) = wordsOf (Array.zipWith (· + ·) lhs rhs)
  sub : ∀ lhs rhs : Array Element, lhs.size = rhs.size →
    k.subWords (wordsOf lhs) (wordsOf rhs) = wordsOf (Array.zipWith (· - ·) lhs rhs)
  mul : ∀ lhs rhs : Array Element, lhs.size = rhs.size →
    k.mulWords (wordsOf lhs) (wordsOf rhs) = wordsOf (Array.zipWith (· * ·) lhs rhs)
  scale : ∀ (values : Array Element) (scalar : Element),
    k.scaleWords (wordsOf values) scalar.val = wordsOf (values.map (· * scalar))
  butterflies : ∀ lo hi twiddles : Array Element, lo.size = hi.size → lo.size = twiddles.size →
    k.butterflyWords (wordsOf lo) (wordsOf hi) (wordsOf twiddles) =
      (wordsOf (butterflyPairs lo hi twiddles).1, wordsOf (butterflyPairs lo hi twiddles).2)

/-- Arithmetic that is right in every lane is exact on sequences of any length. -/
theorem Lanewise.exact (hk : k.Lanewise) : k.Exact where
  add lhs rhs hsize := by
    rw [addWords, zipWords_eq hk.add _ _ (size_wordsOf_eq hsize),
      zipWith_wordsOf (· + ·) (fun _ _ => rfl)]
  sub lhs rhs hsize := by
    rw [subWords, zipWords_eq hk.sub _ _ (size_wordsOf_eq hsize),
      zipWith_wordsOf (· - ·) (fun _ _ => rfl)]
  mul lhs rhs hsize := by
    rw [mulWords, zipWords_eq hk.mul _ _ (size_wordsOf_eq hsize),
      zipWith_wordsOf (· * ·) (fun _ _ => rfl)]
  scale values scalar := by
    rw [hk.scaleWords_eq, wordsOf, wordsOf, Array.map_map, Array.map_map]
    rfl
  butterflies lo hi twiddles hhi htw := by
    rw [hk.butterflyWords_eq _ _ _ (size_wordsOf_eq hhi) (size_wordsOf_eq htw),
      zipWith_wordsOf (· * ·) (fun _ _ => rfl), zipWith_wordsOf (· + ·) (fun _ _ => rfl),
      zipWith_wordsOf (· - ·) (fun _ _ => rfl), butterflyPairs]

/-- What follows a check of lengths may count on them. -/
theorem requireSameLengths_congr {α : Type} (operation : BatchOperation) (a b c : Nat) (x y : α)
    (h : a = b → a = c → x = y) :
    (do requireSameLengths operation a b c; return x : Except Violation α) =
      (do requireSameLengths operation a b c; return y) := by
  unfold requireSameLengths requireSameLength
  by_cases hb : a = b
  · by_cases hc : a = c
    · rw [h hb hc]
    · rw [if_pos hb, if_neg hc]
      rfl
  · rw [if_neg hb]
    rfl

theorem requireSameLength_congr {α : Type} (operation : BatchOperation) (a b : Nat) (x y : α)
    (h : a = b → x = y) :
    (do requireSameLength operation a b; return x : Except Violation α) =
      (do requireSameLength operation a b; return y) := by
  unfold requireSameLength
  by_cases hb : a = b
  · rw [h hb]
  · rw [if_neg hb]
    rfl

/-- Kernels made of exact lane arithmetic compute, and refuse, what the kernels
    that work an element at a time do. -/
theorem Exact.kernels_eq (hk : k.Exact) (capability : Capability) :
    k.kernels capability = { Kernels.scalar with capability := capability } := by
  -- One operation after another: the checks are the same, and what follows them
  -- counts on the lengths they have found equal.
  unfold kernels Kernels.scalar
  congr 1
  · funext lhs rhs outLength
    refine requireSameLengths_congr _ _ _ _ _ _ (fun h _ => ?_)
    rw [hk.add lhs rhs h, elementsOf_wordsOf]
  · funext lhs rhs outLength
    refine requireSameLengths_congr _ _ _ _ _ _ (fun h _ => ?_)
    rw [hk.sub lhs rhs h, elementsOf_wordsOf]
  · funext lhs rhs outLength
    refine requireSameLengths_congr _ _ _ _ _ _ (fun h _ => ?_)
    rw [hk.mul lhs rhs h, elementsOf_wordsOf]
  · funext values factors
    refine requireSameLength_congr _ _ _ _ _ (fun h => ?_)
    rw [hk.mul values factors h, elementsOf_wordsOf]
  · funext values scalar
    rw [hk.scale, elementsOf_wordsOf]
  · funext lo hi twiddles
    refine requireSameLengths_congr _ _ _ _
      (elementsOf (k.butterflyWords (wordsOf lo) (wordsOf hi) (wordsOf twiddles)).1,
        elementsOf (k.butterflyWords (wordsOf lo) (wordsOf hi) (wordsOf twiddles)).2) _
      (fun hhi htw => ?_)
    rw [hk.butterflies lo hi twiddles hhi htw, elementsOf_wordsOf, elementsOf_wordsOf]

end LaneArithmetic

theorem Avx2.arithmetic_exact : Avx2.arithmetic.Exact :=
  LaneArithmetic.Lanewise.exact ⟨getElem_add, getElem_sub, getElem_mul⟩

theorem Avx512.arithmetic_exact : Avx512.arithmetic.Exact :=
  LaneArithmetic.Lanewise.exact ⟨getElem_add, getElem_sub, getElem_mul⟩

namespace Kernels

/-- The kernels of every capability compute, and refuse, the same. -/
theorem of_eq (capability : Capability) :
    Kernels.of capability = { Kernels.scalar with capability := capability } := by
  cases capability with
  | scalar => rfl
  | avx2 => exact Avx2.arithmetic_exact.kernels_eq .avx2
  | avx512 => exact Avx512.arithmetic_exact.kernels_eq .avx512

/-- Two implementations that give the same results and the same refusals on all
    operands, whatever their lengths. -/
structure Agrees (k k' : Kernels) : Prop where
  add : ∀ lhs rhs outLength, k.add lhs rhs outLength = k'.add lhs rhs outLength
  sub : ∀ lhs rhs outLength, k.sub lhs rhs outLength = k'.sub lhs rhs outLength
  mul : ∀ lhs rhs outLength, k.mul lhs rhs outLength = k'.mul lhs rhs outLength
  mulAssign : ∀ values factors, k.mulAssign values factors = k'.mulAssign values factors
  scale : ∀ values scalar, k.scale values scalar = k'.scale values scalar
  butterflies : ∀ lo hi twiddles, k.butterflies lo hi twiddles = k'.butterflies lo hi twiddles

/-- The operands that an implementation refuses under an operation's name are
    those that differ in length. -/
structure ChecksLengths (k : Kernels) : Prop where
  add : ∀ lhs rhs outLength, k.add lhs rhs outLength = .error (.operandLengths .add) ↔
    ¬ (lhs.size = rhs.size ∧ lhs.size = outLength)
  sub : ∀ lhs rhs outLength, k.sub lhs rhs outLength = .error (.operandLengths .sub) ↔
    ¬ (lhs.size = rhs.size ∧ lhs.size = outLength)
  mul : ∀ lhs rhs outLength, k.mul lhs rhs outLength = .error (.operandLengths .mul) ↔
    ¬ (lhs.size = rhs.size ∧ lhs.size = outLength)
  mulAssign : ∀ values factors, k.mulAssign values factors = .error (.operandLengths .mulAssign) ↔
    ¬ values.size = factors.size
  butterflies : ∀ lo hi twiddles,
    k.butterflies lo hi twiddles = .error (.operandLengths .butterflies) ↔
      ¬ (lo.size = hi.size ∧ lo.size = twiddles.size)

end Kernels

/-- What follows a check of two lengths is not reached exactly where they differ. -/
theorem requireSameLength_eq_error_iff {α : Type} (operation : BatchOperation) (a b : Nat) (x : α) :
    (do requireSameLength operation a b; return x : Except Violation α) =
      .error (.operandLengths operation) ↔ ¬ a = b := by
  unfold requireSameLength
  by_cases hb : a = b
  · rw [if_pos hb]
    refine ⟨fun h => ?_, fun h => absurd hb h⟩
    cases h
  · rw [if_neg hb]
    exact ⟨fun _ => hb, fun _ => rfl⟩

theorem requireSameLengths_eq_error_iff {α : Type} (operation : BatchOperation) (a b c : Nat)
    (x : α) : (do requireSameLengths operation a b c; return x : Except Violation α) =
      .error (.operandLengths operation) ↔ ¬ (a = b ∧ a = c) := by
  by_cases hb : a = b
  · -- The first comparison is passed, and leaves the second.
    have hsecond := requireSameLength_eq_error_iff operation a c x
    unfold requireSameLengths
    rw [requireSameLength, if_pos hb, and_iff_right hb]
    exact hsecond
  · unfold requireSameLengths
    rw [requireSameLength, if_neg hb]
    exact ⟨fun _ h => hb h.1, fun _ => rfl⟩

theorem Kernels.scalar_checksLengths : Kernels.scalar.ChecksLengths where
  add _ _ _ := requireSameLengths_eq_error_iff _ _ _ _ _
  sub _ _ _ := requireSameLengths_eq_error_iff _ _ _ _ _
  mul _ _ _ := requireSameLengths_eq_error_iff _ _ _ _ _
  mulAssign _ _ := requireSameLength_eq_error_iff _ _ _ _
  butterflies _ _ _ := requireSameLengths_eq_error_iff _ _ _ _ _

/-- The kernels on registers of four and of eight lanes are exact, and whichever
    kernels are chosen, they compute what the scalar ones do on operands of every
    length, and refuse the same operands under the same name: those of different
    lengths. -/
theorem packed_kernels_exact :
    Avx2.arithmetic.Exact ∧ Avx512.arithmetic.Exact ∧
      ∀ capability, (Kernels.of capability).Agrees .scalar ∧
        (Kernels.of capability).ChecksLengths := by
  refine ⟨Avx2.arithmetic_exact, Avx512.arithmetic_exact, fun capability => ?_⟩
  rw [Kernels.of_eq]
  refine ⟨?_, ?_⟩
  · exact ⟨fun _ _ _ => rfl, fun _ _ _ => rfl, fun _ _ _ => rfl, fun _ _ => rfl, fun _ _ => rfl,
      fun _ _ _ => rfl⟩
  · rcases Kernels.scalar_checksLengths with ⟨hadd, hsub, hmul, hmulAssign, hbutterflies⟩
    exact ⟨hadd, hsub, hmul, hmulAssign, hbutterflies⟩

end TraceCommit
