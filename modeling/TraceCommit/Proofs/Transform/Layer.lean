import TraceCommit.Proofs.Chunks
import TraceCommit.Proofs.Entries
import TraceCommit.Proofs.Kernel.Batch
import TraceCommit.Proofs.Parallel.Tasks

/-!
# What One Layer Does

A butterfly layer cuts the buffer into blocks and lets the halves of every block
meet. The result does not depend on the way there: blocks may be worked through
directly or by a kernel of any capability, each as a task of its own or each
split into tasks, in any order. `mergedLayer` is that result, and its entries
are what the transform's algebra needs to know about it.

## Main definitions

* `mergedBlock`: A block after its butterflies.
* `mergedLayer`: The buffer after those of all blocks.

## Theorems

* `butterflyBlock_eq`, `splitBlock_eq`: The two ways to work on a block.
* `butterflyLayer_eq`: All ways to work on a buffer.
* `entry_mergedLayer_lower`, `entry_mergedLayer_upper`: The entries.
-/

namespace TraceCommit

/-- A block whose halves have met in butterflies. -/
def mergedBlock (twiddles block : Array Element) : Array Element :=
  let half := block.size / 2
  let pair := butterflyPairs (block.extract 0 half) (block.extract half) twiddles
  pair.1 ++ pair.2

/-- A buffer in whose blocks of `m` elements the halves have met. -/
def mergedLayer (twiddles : Array Element) (m : Nat) (values : Array Element) : Array Element :=
  ((chunksOf m values).map (mergedBlock twiddles)).flatten

variable (c : Capability) (s : Schedule) {twiddles block : Array Element} {half : Nat}

theorem butterflies_eq {lo hi twiddles : Array Element} (hhi : hi.size = lo.size)
    (htw : twiddles.size = lo.size) :
    (Kernels.of c).butterflies lo hi twiddles = .ok (butterflyPairs lo hi twiddles) := by
  rw [Kernels.of_eq]
  show (do
    requireSameLengths .butterflies lo.size hi.size twiddles.size
    return butterflyPairs lo hi twiddles) = _
  unfold requireSameLengths requireSameLength
  rw [if_pos hhi.symm, if_pos htw.symm]
  rfl

theorem size_lower (hblock : block.size = 2 * half) : (block.extract 0 half).size = half := by
  rw [Array.size_extract]
  omega

theorem size_upper (hblock : block.size = 2 * half) : (block.extract half).size = half := by
  rw [Array.size_extract]
  omega

/-- Worked through directly or by a kernel, a block becomes the same. -/
theorem butterflyBlock_eq (hblock : block.size = 2 * half) (htw : twiddles.size = half) :
    butterflyBlock (.of c) twiddles block = .ok (mergedBlock twiddles block) := by
  -- The halves and the twiddles have one length, so the kernel does not refuse.
  have hhalf : block.size / 2 = half := by omega
  have hlower := size_lower hblock
  have hkernel := butterflies_eq c ((size_upper hblock).trans hlower.symm) (htw.trans hlower.symm)
  have hsplit : splitAt block half = .ok (block.extract 0 half, block.extract half) :=
    splitAt_of_le (by omega)
  simp only [butterflyBlock, mergedBlock, hhalf, hsplit, ok_bind, hkernel]
  -- Narrow blocks do not go through the kernel, but it would do the same to them.
  split
  · rfl
  · rfl

/-- Part `i` of a sequence that is cut for the tasks of a split block. -/
def butterflyPart (xs : Array Element) (i : Nat) : Array Element :=
  xs.extract (i * butterflyGrain) ((i + 1) * butterflyGrain)

theorem size_butterflyPart {xs ys : Array Element} (h : xs.size = ys.size) (i : Nat) :
    (butterflyPart xs i).size = (butterflyPart ys i).size := by
  unfold butterflyPart
  rw [Array.size_extract, Array.size_extract, h]

/-- The tasks of a split block do the butterflies of its parts. -/
theorem update_parts {lo hi twiddles : Array Element} (hhi : hi.size = lo.size)
    (htw : twiddles.size = lo.size) :
    s.update true (fun i pair => (Kernels.of c).butterflies pair.1 pair.2
        ((chunksOf butterflyGrain twiddles).getD i #[]))
      (Array.zipWith Prod.mk (chunksOf butterflyGrain lo) (chunksOf butterflyGrain hi)) =
      .ok (Array.ofFn fun i : Fin (chunksOf butterflyGrain lo).size =>
        butterflyPairs (butterflyPart lo i) (butterflyPart hi i) (butterflyPart twiddles i)) := by
  -- The three sequences have one length, so they are cut at the same places.
  have hhis : (chunksOf butterflyGrain hi).size = (chunksOf butterflyGrain lo).size := by
    rw [size_chunksOf, size_chunksOf, hhi]
  have hparts : (chunksOf butterflyGrain twiddles).size = (chunksOf butterflyGrain lo).size := by
    rw [size_chunksOf, size_chunksOf, htw]
  have hslots : (Array.zipWith Prod.mk (chunksOf butterflyGrain lo)
      (chunksOf butterflyGrain hi)).size = (chunksOf butterflyGrain lo).size := by
    rw [Array.size_zipWith, hhis, Nat.min_self]
  have hpart (i : Nat) (h : i < (chunksOf butterflyGrain lo).size) :
      (chunksOf butterflyGrain twiddles).getD i #[] = butterflyPart twiddles i := by
    have hlt : i < (chunksOf butterflyGrain twiddles).size := by rwa [hparts]
    rw [← Array.getElem_eq_getD (h := hlt) #[], getElem_chunksOf]
    rfl
  rw [s.update_eq_pure true (fun i pair => butterflyPairs pair.1 pair.2
    ((chunksOf butterflyGrain twiddles).getD i #[]))]
  · show Except.ok _ = _
    congr 1
    refine Array.ext ?_ (fun i h1 h2 => ?_)
    · rw [Array.size_mapIdx, Array.size_ofFn, hslots]
    · rw [Array.size_ofFn] at h2
      rw [Array.getElem_mapIdx, Array.getElem_ofFn, Array.getElem_zipWith, getElem_chunksOf,
        getElem_chunksOf, hpart i h2]
      rfl
  · intro i h
    rw [hslots] at h
    rw [Array.getElem_zipWith, getElem_chunksOf, getElem_chunksOf, hpart i h]
    exact butterflies_eq c (size_butterflyPart hhi i) (size_butterflyPart htw i)

/-- The results of the parts make up the result of the whole. -/
theorem flatten_parts (op : Element → Element → Element) {lo hi twiddles : Array Element}
    (hhi : hi.size = lo.size) (htw : twiddles.size = lo.size) :
    (Array.ofFn fun i : Fin (chunksOf butterflyGrain lo).size =>
      Array.zipWith op (butterflyPart lo i)
        (Array.zipWith (· * ·) (butterflyPart hi i) (butterflyPart twiddles i))).flatten =
      Array.zipWith op lo (Array.zipWith (· * ·) hi twiddles) := by
  -- Cutting commutes with working item by item, so this is the whole cut and joined.
  have hcover := le_size_chunksOf_mul (by decide : 0 < butterflyGrain) lo
  unfold butterflyPart
  simp only [← Array.extract_zipWith]
  rw [flatten_ofFn_extract, Array.extract_eq_self_of_le]
  rw [Array.size_zipWith, Array.size_zipWith, hhi, htw, Nat.min_self, Nat.min_self]
  exact hcover

/-- Split into tasks a block becomes the same as in one piece. -/
theorem splitBlock_eq (hblock : block.size = 2 * half) (htw : twiddles.size = half) :
    splitBlock ⟨.of c, s⟩ twiddles block = .ok (mergedBlock twiddles block) := by
  have hhalf : block.size / 2 = half := by omega
  have hlower := size_lower hblock
  have hhi := (size_upper hblock).trans hlower.symm
  have htw' := htw.trans hlower.symm
  have hsplit : splitAt block half = .ok (block.extract 0 half, block.extract half) :=
    splitAt_of_le (by omega)
  simp only [splitBlock, mergedBlock, hhalf, hsplit, ok_bind]
  rw [update_parts c s hhi htw']
  show Except.ok _ = _
  rw [Array.map_ofFn, Array.map_ofFn]
  congr 2
  · exact flatten_parts _ hhi htw'
  · exact flatten_parts _ hhi htw'

/-- The size of a block after its butterflies. -/
theorem size_mergedBlock (hblock : block.size = 2 * half) (htw : twiddles.size = half) :
    (mergedBlock twiddles block).size = 2 * half := by
  have hhalf : block.size / 2 = half := by omega
  simp only [mergedBlock, butterflyPairs, hhalf, Array.size_append, Array.size_zipWith,
    size_lower hblock, size_upper hblock, htw]
  omega

theorem size_turned (hblock : block.size = 2 * half) (htw : twiddles.size = half) :
    (Array.zipWith (· * ·) (block.extract half) twiddles).size = half := by
  rw [Array.size_zipWith, size_upper hblock, htw, Nat.min_self]

theorem entry_mergedBlock_lower (hblock : block.size = 2 * half) (htw : twiddles.size = half)
    {j : Nat} (hj : j < half) : entry (mergedBlock twiddles block) j =
      entry block j + entry block (half + j) * entry twiddles j := by
  have hhalf : block.size / 2 = half := by omega
  have hlower := size_lower hblock
  have hupper := size_upper hblock
  have hturned := size_turned hblock htw
  -- The sums come first.
  simp only [mergedBlock, butterflyPairs, hhalf]
  rw [entry_append_left (by rw [Array.size_zipWith]; omega), entry_zipWith (by omega) (by omega),
    entry_zipWith (by omega) (by omega), entry_extract (by omega), entry_extract (by omega),
    Nat.zero_add]

theorem entry_mergedBlock_upper (hblock : block.size = 2 * half) (htw : twiddles.size = half)
    {j : Nat} (hj : j < half) : entry (mergedBlock twiddles block) (half + j) =
      entry block j - entry block (half + j) * entry twiddles j := by
  have hhalf : block.size / 2 = half := by omega
  have hlower := size_lower hblock
  have hupper := size_upper hblock
  have hturned := size_turned hblock htw
  -- The differences stand behind the sums, of which there are as many.
  have hsums : (Array.zipWith (· + ·) (block.extract 0 half)
      (Array.zipWith (· * ·) (block.extract half) twiddles)).size = half := by
    rw [Array.size_zipWith, hlower, hturned, Nat.min_self]
  simp only [mergedBlock, butterflyPairs, hhalf]
  rw [entry_append_right (by omega), hsums, Nat.add_sub_cancel_left,
    entry_zipWith (by omega) (by omega), entry_zipWith (by omega) (by omega),
    entry_extract (by omega), entry_extract (by omega), Nat.zero_add]

variable {values : Array Element} {blocks : Nat}

theorem size_chunksOf_of_eq {m : Nat} (hm : 0 < m) (hvalues : values.size = blocks * m) :
    (chunksOf m values).size = blocks := by
  -- Rounding up does nothing, since the blocks fill the buffer.
  have hround : (values.size + m - 1) / m = (m - 1 + m * blocks) / m := by
    rw [hvalues, Nat.mul_comm m blocks]
    congr 1
    omega
  rw [size_chunksOf, hround, Nat.add_mul_div_left _ _ hm, Nat.div_eq_of_lt (by omega),
    Nat.zero_add]

theorem size_getElem_chunksOf {m : Nat} (hm : 0 < m) (hvalues : values.size = blocks * m)
    (b : Nat) (hb : b < (chunksOf m values).size) : (chunksOf m values)[b].size = m := by
  rw [size_chunksOf_of_eq hm hvalues] at hb
  have hle : (b + 1) * m ≤ blocks * m := Nat.mul_le_mul_right m hb
  rw [getElem_chunksOf, Array.size_extract, hvalues, Nat.min_eq_left hle, Nat.succ_mul,
    Nat.add_sub_cancel_left]

/-- One layer does the butterflies of all blocks, forked over the blocks, split
    inside them or neither. -/
theorem butterflyLayer_eq (hhalf : 0 < half) (hvalues : values.size = blocks * (2 * half))
    (htw : twiddles.size = half) :
    butterflyLayer ⟨.of c, s⟩ twiddles (2 * half) values =
      .ok (mergedLayer twiddles (2 * half) values) := by
  have hm : 0 < 2 * half := by omega
  have hsize := size_getElem_chunksOf hm hvalues
  -- What a block becomes does not depend on its number.
  have hmap : (chunksOf (2 * half) values).mapIdx (fun _ => mergedBlock twiddles) =
      (chunksOf (2 * half) values).map (mergedBlock twiddles) := by
    refine Array.ext ?_ (fun i h1 h2 => ?_)
    · rw [Array.size_mapIdx, Array.size_map]
    · rw [Array.getElem_mapIdx, Array.getElem_map]
  have hsplit : runTasks (List.range (chunksOf (2 * half) values).size)
      (fun i => splitBlock (Engine.branch ⟨.of c, s⟩ i) twiddles) (chunksOf (2 * half) values) =
        .ok ((chunksOf (2 * half) values).map (mergedBlock twiddles)) := by
    rw [← hmap]
    -- Tasks from first to last are those of a fork that is not forked.
    exact Schedule.sequential.update_eq_pure false (fun _ => mergedBlock twiddles) _
      (fun i hi => splitBlock_eq c (s.branch i) (hsize i hi) htw)
  have hforked : s.update (s.forksOver values.size)
      (fun _ => butterflyBlock (.of c) twiddles) (chunksOf (2 * half) values) =
        .ok ((chunksOf (2 * half) values).map (mergedBlock twiddles)) := by
    rw [← hmap]
    exact s.update_eq_pure _ (fun _ => mergedBlock twiddles) _
      (fun i hi => butterflyBlock_eq c (hsize i hi) htw)
  -- Which of the two happens depends on the workers, what comes of it does not.
  simp only [butterflyLayer, hsplit, hforked]
  split
  · rfl
  · rfl

/-- The merged blocks are as many as the blocks and of the same length. -/
theorem mergedBlocks_uniform (hhalf : 0 < half) (hvalues : values.size = blocks * (2 * half))
    (htw : twiddles.size = half) :
    ((chunksOf (2 * half) values).map (mergedBlock twiddles)).size = blocks ∧
      ∀ i (hi : i < ((chunksOf (2 * half) values).map (mergedBlock twiddles)).size),
        ((chunksOf (2 * half) values).map (mergedBlock twiddles))[i].size = 2 * half := by
  have hm : 0 < 2 * half := by omega
  refine ⟨?_, fun i hi => ?_⟩
  · rw [Array.size_map, size_chunksOf_of_eq hm hvalues]
  · rw [Array.getElem_map]
    exact size_mergedBlock (size_getElem_chunksOf hm hvalues i _) htw

/-- An item of the layer stands where its block puts it. -/
theorem entry_mergedLayer (hhalf : 0 < half) (hvalues : values.size = blocks * (2 * half))
    (htw : twiddles.size = half) {b j : Nat} (hb : b < blocks) (hj : j < 2 * half) :
    entry (mergedLayer twiddles (2 * half) values) (b * (2 * half) + j) =
      entry (mergedBlock twiddles
        (values.extract (b * (2 * half)) ((b + 1) * (2 * half)))) j := by
  -- All blocks have one size, so the item is found by its block and its place there.
  rcases mergedBlocks_uniform hhalf hvalues htw with ⟨hcount, huniform⟩
  have hitem := getElem?_flatten_of_uniform _ huniform b j (by rwa [hcount]) hj
  rw [Array.getElem_map, getElem_chunksOf] at hitem
  unfold entry mergedLayer
  rw [Array.getD_eq_getD_getElem?, Array.getD_eq_getD_getElem?, hitem]

theorem size_mergedLayer (hhalf : 0 < half) (hvalues : values.size = blocks * (2 * half))
    (htw : twiddles.size = half) :
    (mergedLayer twiddles (2 * half) values).size = values.size := by
  rcases mergedBlocks_uniform hhalf hvalues htw with ⟨hcount, huniform⟩
  unfold mergedLayer
  rw [size_flatten_of_uniform _ huniform, hcount, hvalues]

theorem size_extract_block (hvalues : values.size = blocks * (2 * half)) {b : Nat}
    (hb : b < blocks) :
    (values.extract (b * (2 * half)) ((b + 1) * (2 * half))).size = 2 * half := by
  have hle : (b + 1) * (2 * half) ≤ blocks * (2 * half) := Nat.mul_le_mul_right _ hb
  rw [Array.size_extract, hvalues, Nat.min_eq_left hle, Nat.succ_mul, Nat.add_sub_cancel_left]

theorem entry_extract_block {b j : Nat} (hj : j < 2 * half) :
    entry (values.extract (b * (2 * half)) ((b + 1) * (2 * half))) j =
      entry values (b * (2 * half) + j) := by
  have hend := Nat.add_one_mul b (2 * half)
  exact entry_extract (by omega)

/-- The lower half of a block receives the sums. -/
theorem entry_mergedLayer_lower (hhalf : 0 < half) (hvalues : values.size = blocks * (2 * half))
    (htw : twiddles.size = half) {b j : Nat} (hb : b < blocks) (hj : j < half) :
    entry (mergedLayer twiddles (2 * half) values) (b * (2 * half) + j) =
      entry values (b * (2 * half) + j) +
        entry values (b * (2 * half) + (half + j)) * entry twiddles j := by
  rw [entry_mergedLayer hhalf hvalues htw hb (by omega),
    entry_mergedBlock_lower (size_extract_block hvalues hb) htw hj,
    entry_extract_block (by omega), entry_extract_block (by omega)]

/-- The upper half of a block receives the differences. -/
theorem entry_mergedLayer_upper (hhalf : 0 < half) (hvalues : values.size = blocks * (2 * half))
    (htw : twiddles.size = half) {b j : Nat} (hb : b < blocks) (hj : j < half) :
    entry (mergedLayer twiddles (2 * half) values) (b * (2 * half) + (half + j)) =
      entry values (b * (2 * half) + j) -
        entry values (b * (2 * half) + (half + j)) * entry twiddles j := by
  rw [entry_mergedLayer hhalf hvalues htw hb (by omega),
    entry_mergedBlock_upper (size_extract_block hvalues hb) htw hj,
    entry_extract_block (by omega), entry_extract_block (by omega)]

end TraceCommit
