import TraceCommit.Proofs.Transform.Layer
import TraceCommit.Proofs.Transform.Roots
import TraceCommit.Proofs.Transform.Spectrum
import TraceCommit.Transform.Forward

/-!
# The Network of Layers

What a transform's buffer holds between its layers. After layer `l` every block
of `2 ^ l` elements is a transform of its own: block `b` that of the inputs
whose low `k - l` binary digits are those of `b` in reverse order. One layer
merges the blocks two by two, and the last one leaves a single block, which is
the transform of all inputs.

Where the inputs from `2 ^ (k - r)` on count as zero, the blocks of `2 ^ r`
elements are transforms of a single input each, so they hold nothing but
copies of it.

## Main definitions

* `Merged`: The invariant, after layer `l`.
* `leading`: Inputs of which only the first count.

## Theorems

* `merged_broadcastHeads`: The invariant holds before the first layer that runs.
* `Merged.step`: A layer preserves it.
* `butterflyLayers_eq`: The layers succeed and compute the transform.
-/

namespace TraceCommit

open Finset

/-- After layer `l` of a transform of `2 ^ k` inputs every block of `2 ^ l`
    elements is the transform of the inputs that belong to it. -/
structure Merged (k l : Nat) (x : Nat → Element) (buffer : Array Element) : Prop where
  /-- The buffer holds one element for each input. -/
  size_eq : buffer.size = 2 ^ k
  /-- The elements of block `b`. -/
  entry_eq : ∀ b < 2 ^ (k - l), ∀ j < 2 ^ l, entry buffer (b * 2 ^ l + j) =
    transformSum (unityRoot l) (2 ^ l) (fun t => x (reversal (k - l) b + 2 ^ (k - l) * t)) j

variable {k l r : Nat} {x : Nat → Element} {buffer : Array Element}

/-- The inputs of the even half of block `b` are those at even places. -/
theorem inputs_even (rest b t : Nat) :
    reversal (rest + 1) (2 * b) + 2 ^ (rest + 1) * t = reversal rest b + 2 ^ rest * (2 * t) := by
  rw [reversal_succ_two_mul, pow_succ, Nat.mul_assoc]

/-- The inputs of the odd half of block `b` are those at odd places. -/
theorem inputs_odd (rest b t : Nat) :
    reversal (rest + 1) (2 * b + 1) + 2 ^ (rest + 1) * t =
      reversal rest b + 2 ^ rest * (2 * t + 1) := by
  rw [reversal_succ_two_mul_add_one, pow_succ]
  ring

/-- A layer merges the blocks two by two. -/
theorem Merged.step (h : Merged k l x buffer) (hl : l + 1 ≤ k) (hk : k ≤ 32) :
    Merged k (l + 1) x (mergedLayer (twiddles (l + 1)) (2 * 2 ^ l) buffer) := by
  rcases Nat.exists_eq_add_of_le hl with ⟨rest, rfl⟩
  have hrest : l + 1 + rest - (l + 1) = rest := by omega
  have hrest' : l + 1 + rest - l = rest + 1 := by omega
  have hhalf : 0 < 2 ^ l := Nat.two_pow_pos l
  -- The buffer is cut into blocks of twice the size.
  have hblocks : buffer.size = 2 ^ rest * (2 * 2 ^ l) := by
    rw [h.size_eq, pow_add, pow_succ]
    ring
  have htw : (twiddles (l + 1)).size = 2 ^ l := size_twiddles (l + 1)
  -- What stands in the two blocks that are merged into block `b`.
  have hlower : ∀ b < 2 ^ rest, ∀ j < 2 ^ l, entry buffer (b * (2 * 2 ^ l) + j) =
      transformSum (unityRoot l) (2 ^ l) (fun t => x (reversal rest b + 2 ^ rest * (2 * t))) j := by
    intro b hb j hj
    have hplace : b * (2 * 2 ^ l) + j = 2 * b * 2 ^ l + j := by ring
    have hentry := h.entry_eq (2 * b) (by rw [hrest', pow_succ]; omega) j hj
    rw [hplace, hentry, hrest']
    simp only [inputs_even]
  have hupper : ∀ b < 2 ^ rest, ∀ j < 2 ^ l, entry buffer (b * (2 * 2 ^ l) + (2 ^ l + j)) =
      transformSum (unityRoot l) (2 ^ l)
        (fun t => x (reversal rest b + 2 ^ rest * (2 * t + 1))) j := by
    intro b hb j hj
    have hplace : b * (2 * 2 ^ l) + (2 ^ l + j) = (2 * b + 1) * 2 ^ l + j := by ring
    have hentry := h.entry_eq (2 * b + 1) (by rw [hrest', pow_succ]; omega) j hj
    rw [hplace, hentry, hrest']
    simp only [inputs_odd]
  constructor
  · rw [size_mergedLayer hhalf hblocks htw, h.size_eq]
  · intro b hb j hj
    rw [hrest] at hb ⊢
    -- The sums are the values on the first half of the circle, the differences
    -- those on the second half.
    have hwidth : 2 ^ (l + 1) = 2 * 2 ^ l := by rw [pow_succ, Nat.mul_comm]
    rw [hwidth] at hj
    rcases Nat.lt_or_ge j (2 ^ l) with hlow | hhigh
    · rw [transformSum_lower (by omega), hwidth,
        entry_mergedLayer_lower hhalf hblocks htw hb hlow, hlower b hb j hlow,
        hupper b hb j hlow, entry_twiddles hlow]
    · rcases Nat.exists_eq_add_of_le hhigh with ⟨i, rfl⟩
      have hi : i < 2 ^ l := by omega
      rw [transformSum_upper (by omega), hwidth,
        entry_mergedLayer_upper hhalf hblocks htw hb hi, hlower b hb i hi,
        hupper b hb i hi, entry_twiddles hi]

/-- A single block is the transform. -/
theorem Merged.eq_spectrum (h : Merged k k x buffer) : buffer = spectrum k x := by
  refine ext_entry ?_ (fun i hi => ?_)
  · rw [h.size_eq, size_spectrum]
  · rw [h.size_eq] at hi
    have hentry := h.entry_eq 0 (Nat.two_pow_pos _) i hi
    rw [Nat.zero_mul, Nat.zero_add] at hentry
    rw [hentry, entry_spectrum x hi]
    simp only [Nat.sub_self, reversal, pow_zero, Nat.one_mul, Nat.zero_add]

/-- The first of the layers that are left is carried out, and the others follow
    on what it made. -/
theorem butterflyLayers_succ (c : Capability) (s : Schedule) {table : RootTable}
    (htable : table.Serves k) (hl : l + 1 ≤ k) (h : Merged k l x buffer) :
    butterflyLayers ⟨.of c, s⟩ table (l + 1) k buffer =
      butterflyLayers ⟨.of c, s⟩ table (l + 2) k
        (mergedLayer (twiddles (l + 1)) (2 * 2 ^ l) buffer) := by
  rcases Nat.exists_eq_add_of_le hl with ⟨left, rfl⟩
  have hcount : l + 1 + left + 1 - (l + 1) = left + 1 := by omega
  have hcount' : l + 1 + left + 1 - (l + 2) = left := by omega
  -- The table has this layer, and the layer succeeds on the blocks of the buffer.
  have hlayer := htable (l + 1) (by omega) (by omega)
  have hwidth : 1 <<< (l + 1) = 2 * 2 ^ l := by
    rw [Nat.one_shiftLeft, pow_succ, Nat.mul_comm]
  have hblocks : buffer.size = 2 ^ left * (2 * 2 ^ l) := by
    rw [h.size_eq, pow_add, pow_succ]
    ring
  have hmerge := butterflyLayer_eq c (s.branch (l + 1)) (Nat.two_pow_pos l) hblocks
    (size_twiddles (l + 1))
  unfold butterflyLayers
  rw [hcount, hcount', List.range'_succ, List.foldlM_cons, hlayer, hwidth]
  show (do
    let next ← (liftM (butterflyLayer ⟨.of c, s.branch (l + 1)⟩ (twiddles (l + 1))
      (2 * 2 ^ l) buffer) : Except TransformError (Array Element))
    _) = _
  rw [hmerge]
  rfl

/-- The layers that are left lead from the invariant to the transform. -/
theorem butterflyLayers_eq (c : Capability) (s : Schedule) {table : RootTable}
    (htable : table.Serves k) (hk : k ≤ 32) (left : Nat) : ∀ l, l + left = k →
      ∀ buffer, Merged k l x buffer →
        butterflyLayers ⟨.of c, s⟩ table (l + 1) k buffer = .ok (spectrum k x) := by
  induction left with
  | zero =>
      intro l hl buffer h
      -- No layer is left, and the buffer is a single block.
      rw [Nat.add_zero] at hl
      subst hl
      unfold butterflyLayers
      rw [Nat.sub_self, ← h.eq_spectrum]
      rfl
  | succ left ih =>
      intro l hl buffer h
      rw [butterflyLayers_succ c s htable (by omega) h]
      exact ih (l + 1) (by omega) _ (h.step (by omega) hk)

/-- The inputs of which only the first `n` count. -/
def leading (n : Nat) (x : Nat → Element) (t : Nat) : Element := if t < n then x t else 0

theorem entry_broadcastHeads {values : Array Element} {i : Nat} (h : i < values.size) :
    entry (broadcastHeads r values) i = entry values (i - i % 2 ^ r) := by
  have hhead : i - i % 2 ^ r < values.size := by omega
  unfold broadcastHeads
  rw [entry_of_lt (by rwa [Array.size_mapIdx]), Array.getElem_mapIdx, Nat.one_shiftLeft,
    entry_of_lt hhead, ← Array.getElem_eq_getD]

/-- Of the inputs of a block of `2 ^ r` elements only the first one counts. -/
theorem transformSum_leading (ω : Element) {i : Nat} (rest m : Nat) (hi : i < 2 ^ rest)
    (hm : 0 < m) (x : Nat → Element) (j : Nat) :
    transformSum ω m (fun t => leading (2 ^ rest) x (i + 2 ^ rest * t)) j = x i := by
  unfold transformSum
  rw [sum_eq_single_of_mem 0 (mem_range.mpr hm)]
  · show leading (2 ^ rest) x (i + 2 ^ rest * 0) * (ω ^ j) ^ 0 = x i
    rw [Nat.mul_zero, Nat.add_zero, pow_zero, mul_one]
    exact if_pos hi
  · intro t _ ht
    -- Every input of the block but the first lies behind those that count.
    have hbehind : ¬ i + 2 ^ rest * t < 2 ^ rest := by
      have hle := Nat.le_mul_of_pos_right (2 ^ rest) (Nat.pos_of_ne_zero ht)
      omega
    exact mul_eq_zero_of_left (if_neg hbehind) _

/-- Copying the heads of blocks does the work of the first `r` layers, where
    only the first `2 ^ (k - r)` inputs count. -/
theorem merged_broadcastHeads {values : Array Element} (hsize : values.size = 2 ^ k) (hr : r ≤ k) :
    Merged k r (leading (2 ^ (k - r)) (entry values))
      (broadcastHeads r (bitReversed k values)) := by
  rcases Nat.exists_eq_add_of_le' hr with ⟨rest, rfl⟩
  have hrest : rest + r - r = rest := by omega
  constructor
  · exact Array.size_mapIdx.trans ((size_bitReversed _ values).trans hsize)
  · intro b hb j hj
    rw [hrest] at hb ⊢
    -- All of block `b` is a copy of its head, and the head came from an index
    -- below `2 ^ rest`, since its low digits are zeros.
    have hend : b * 2 ^ r + j < 2 ^ (rest + r) := by
      have hle : (b + 1) * 2 ^ r ≤ 2 ^ rest * 2 ^ r := Nat.mul_le_mul_right _ hb
      rw [Nat.add_one_mul] at hle
      rw [pow_add]
      omega
    have hhead : b * 2 ^ r + j - (b * 2 ^ r + j) % 2 ^ r = b * 2 ^ r := by
      rw [Nat.mul_comm, Nat.mul_add_mod, Nat.mod_eq_of_lt hj, Nat.add_sub_cancel]
    rw [entry_broadcastHeads (by rwa [size_bitReversed, hsize]), hhead,
      entry_bitReversed hsize (by omega), reversal_mul_two_pow,
      transformSum_leading _ rest _ (reversal_lt rest b) (Nat.two_pow_pos r)]

/-- Without a zero factor all inputs count, and nothing is copied. -/
theorem broadcastHeads_zero (values : Array Element) : broadcastHeads 0 values = values := by
  refine ext_entry Array.size_mapIdx (fun i hi => ?_)
  have hlt : i < values.size := Nat.lt_of_lt_of_eq hi Array.size_mapIdx
  rw [entry_broadcastHeads hlt, pow_zero, Nat.mod_one, Nat.sub_zero]

end TraceCommit
