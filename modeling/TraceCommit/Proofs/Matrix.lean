import TraceCommit.Matrix
import TraceCommit.Proofs.Chunks
import TraceCommit.Proofs.Parallel.Tasks
import TraceCommit.Word.Checked

/-!
# The Transpose, Tile by Tile

Filling a tile is a sequence of writes, nested three deep: column blocks, rows
and columns of the block. None of them writes anything but the cell that belongs
where it is written, and none of them is broken off, because every place that is
asked for is there: the tile holds full rows, and the columns reach down to the
last of them. So all that has to be said about a step is which places it writes,
and of the whole that no place is left out. `Writes` says that of a step and is
closed under loops.

## Main definitions

* `Writes`: A step writes certain places, each with the cell that belongs there.
* `transposedCell`, `transposed`: The cells in the order of the rows.

## Theorems

* `Writes.foldlM`: A loop writes what any of its rounds writes.
* `copyCell_eq`: A single cell that is there is copied.
* `fillTile_eq`: A filled tile is a stretch of the transpose.
* `Matrix.fillTiles_eq`: The tiles make up the transpose, whatever the buffer held.
* `Matrix.ofColumns_eq`: The matrix made of columns holds it.
* `Matrix.rows_transposed`: The rows of the transpose.
-/

namespace TraceCommit

variable {α β : Type}

/-- The step writes the places with `written`, each with its cell, into
    sequences of `n` items, and spoils no place that already holds its cell. It is
    never broken off. -/
def Writes (cell : Nat → α) (n : Nat) (step : Array α → Except Violation (Array α))
    (written : Nat → Prop) : Prop :=
  ∀ xs, xs.size = n → ∃ ys, step xs = .ok ys ∧ ys.size = n ∧
    ∀ i < n, (written i ∨ xs[i]? = some (cell i)) → ys[i]? = some (cell i)

variable {cell : Nat → α} {n : Nat}

/-- A single write. -/
theorem writes_setIfInBounds (cell : Nat → α) (n place : Nat) :
    Writes cell n (fun xs => .ok (xs.setIfInBounds place (cell place))) (· = place) := by
  intro xs hsize
  refine ⟨_, rfl, by rw [Array.size_setIfInBounds, hsize], fun i hi h => ?_⟩
  -- The place is written, or it is another one and stays what it was.
  by_cases heq : place = i
  · subst heq
    exact Array.getElem?_setIfInBounds_self_of_lt (by rwa [hsize])
  · rw [Array.getElem?_setIfInBounds_ne heq]
    rcases h with hwritten | hkept
    · exact absurd hwritten.symm heq
    · exact hkept

/-- A loop writes what any of its rounds writes. -/
theorem Writes.foldlM {step : Array α → β → Except Violation (Array α)}
    {written : β → Nat → Prop} (l : List β) :
    (∀ b ∈ l, Writes cell n (step · b) (written b)) →
      Writes cell n (fun xs => l.foldlM step xs) (fun i => ∃ b ∈ l, written b i) := by
  induction l with
  | nil =>
      intro _ xs hsize
      refine ⟨xs, rfl, hsize, fun i _ h => ?_⟩
      rcases h with ⟨b, hb, _⟩ | hkept
      · exact absurd hb List.not_mem_nil
      · exact hkept
  | cons b rest ih =>
      intro h xs hsize
      rcases h b List.mem_cons_self xs hsize with ⟨ys, hstep, hsize', hround⟩
      rcases ih (fun b' hb' => h b' (List.mem_cons_of_mem b hb')) ys hsize' with
        ⟨zs, hloop, hsize'', hrest⟩
      refine ⟨zs, ?_, hsize'', fun i hi hwritten => ?_⟩
      · calc (b :: rest).foldlM step xs
          _ = step xs b >>= fun ys => rest.foldlM step ys := List.foldlM_cons
          _ = .ok ys >>= fun ys => rest.foldlM step ys := congrArg (· >>= _) hstep
          _ = .ok zs := hloop
      · -- What the first round writes is not spoiled by those that follow.
        rcases hwritten with ⟨b', hb', hplace⟩ | hkept
        · rcases List.mem_cons.mp hb' with rfl | hmem
          · exact hrest i hi (Or.inr (hround i hi (Or.inl hplace)))
          · exact hrest i hi (Or.inl ⟨b', hmem, hplace⟩)
        · exact hrest i hi (Or.inr (hround i hi (Or.inr hkept)))

/-- A step that leaves no place out makes the sequence of the cells. -/
theorem Writes.eq_ofFn {step : Array α → Except Violation (Array α)} {written : Nat → Prop}
    (h : Writes cell n step written) (hall : ∀ i < n, written i) {xs : Array α}
    (hsize : xs.size = n) : step xs = .ok (Array.ofFn fun i : Fin n => cell i) := by
  rcases h xs hsize with ⟨ys, hstep, hsize', hcells⟩
  rw [hstep, Except.ok.injEq]
  refine Array.ext ?_ (fun i h1 h2 => ?_)
  · rw [hsize', Array.size_ofFn]
  · have hi : i < n := by rwa [hsize'] at h1
    have hcell := hcells i hi (Or.inl (hall i hi))
    rw [Array.getElem_ofFn]
    exact (Array.getElem?_eq_some_iff.mp hcell).2

/-- Columns of one height have no column of another height among them. -/
theorem not_any_size_ne {columns : Array (Array α)} {height : Nat}
    (hsize : ∀ c (hc : c < columns.size), columns[c].size = height) :
    ¬ columns.any (·.size != height) = true := by
  rw [Array.any_eq_true]
  rintro ⟨c, hc, hne⟩
  rw [hsize c hc, bne_self_eq_false] at hne
  exact Bool.false_ne_true hne

namespace Matrix

section Tiles

variable [Inhabited α]

/-- The cell at a place of the buffer, row by row: it comes from column
    `i % width`, row `i / width`. -/
def transposedCell (columns : Array (Array α)) (i : Nat) : α :=
  (columns.getD (i % columns.size) #[]).getD (i / columns.size) default

/-- All cells of `height` rows. -/
def transposed (columns : Array (Array α)) (height : Nat) : Array α :=
  Array.ofFn fun i : Fin (columns.size * height) => transposedCell columns i

variable {columns : Array (Array α)} {width height : Nat}

/-- The cell at row `r` and column `c` behind `firstRow` rows. -/
theorem transposedCell_place (hwidth : columns.size = width) (firstRow r : Nat) {c : Nat}
    (hc : c < width) : transposedCell columns (firstRow * width + (r * width + c)) =
      (columns.getD c #[]).getD (firstRow + r) default := by
  -- Rows are `width` places apart, so the column is the remainder.
  have hplace : firstRow * width + (r * width + c) = c + width * (firstRow + r) := by
    rw [Nat.mul_add, Nat.mul_comm width, Nat.mul_comm width]
    omega
  unfold transposedCell
  rw [hwidth, hplace, Nat.add_mul_mod_self_left, Nat.mod_eq_of_lt hc,
    Nat.add_mul_div_left _ _ (by omega), Nat.div_eq_of_lt hc, Nat.zero_add]

/-- A cell that the columns hold and the row has a place for is copied. -/
theorem copyCell_eq (hwidth : columns.size = width)
    (hsize : ∀ c (hc : c < columns.size), columns[c].size = height) {firstRow r c : Nat}
    (hrow : firstRow + r < height) (hc : c < width) (tile : Array α) :
    copyCell columns width firstRow r tile c = .ok (tile.setIfInBounds (r * width + c)
      (transposedCell columns (firstRow * width + (r * width + c)))) := by
  have hcolumn : c < columns.size := by rwa [hwidth]
  have hitem : firstRow + r < columns[c].size := by rwa [hsize c hcolumn]
  rw [transposedCell_place hwidth firstRow r hc, ← Array.getElem_eq_getD (h := hcolumn) #[],
    ← Array.getElem_eq_getD (h := hitem)]
  unfold copyCell
  rw [itemAt_eq_ok_iff.mpr (Array.getElem?_eq_getElem hcolumn), ok_bind,
    itemAt_eq_ok_iff.mpr (Array.getElem?_eq_getElem hitem), ok_bind, if_pos hc]
  rfl

/-- A part of a row is copied if the columns reach down to the row and the tile
    holds all of it. -/
theorem writes_copyRowPart (hwidth : columns.size = width)
    (hsize : ∀ c (hc : c < columns.size), columns[c].size = height) {n firstRow first last r : Nat}
    (hlast : last ≤ width) (hrow : firstRow + r < height) (htile : (r + 1) * width ≤ n) :
    Writes (fun i => transposedCell columns (firstRow * width + i)) n
      (copyRowPart columns width firstRow first last r)
      (fun i => ∃ c ∈ List.range' first (last - first), i = r * width + c) := by
  intro xs hxs
  unfold copyRowPart
  rw [if_pos (hxs ▸ htile)]
  refine Writes.foldlM _ (fun c hc => ?_) xs hxs
  have hlt : c < width := by
    rw [List.mem_range'_1] at hc
    omega
  simp only [copyCell_eq hwidth hsize hrow hlt]
  exact writes_setIfInBounds (fun i => transposedCell columns (firstRow * width + i)) n _

/-- The rows of a column block. -/
theorem writes_rowsOfBlock (hwidth : columns.size = width)
    (hsize : ∀ c (hc : c < columns.size), columns[c].size = height) {n firstRow first last : Nat}
    (hlast : last ≤ width) (hrows : ∀ r < n / width, firstRow + r < height) :
    Writes (fun i => transposedCell columns (firstRow * width + i)) n
      (fun tile => (List.range (tile.size / width)).foldlM (fun tile r =>
        copyRowPart columns width firstRow first last r tile) tile)
      (fun i => ∃ r ∈ List.range (n / width),
        ∃ c ∈ List.range' first (last - first), i = r * width + c) := by
  intro xs hxs
  subst hxs
  refine Writes.foldlM _ (fun r hr => ?_) xs rfl
  rw [List.mem_range] at hr
  refine writes_copyRowPart hwidth hsize hlast (hrows r hr) ?_
  exact Nat.le_trans (Nat.mul_le_mul_right width hr) (Nat.div_mul_le_self _ width)

/-- Every place of a tile is written: its column is in some block. -/
theorem place_written {rows i : Nat} (hi : i < rows * width) :
    ∃ block ∈ List.range ((width + tileSide - 1) / tileSide), ∃ r ∈ List.range rows,
      ∃ c ∈ List.range' (block * tileSide)
        (min (block * tileSide + tileSide) width - block * tileSide), i = r * width + c := by
  have hwidth : 0 < width := Nat.pos_of_lt_mul_left hi
  have hcolumn := Nat.mod_lt i hwidth
  have hside : tileSide = 32 := rfl
  have hblock := Nat.div_add_mod (i % width) tileSide
  have hinside := Nat.mod_lt (i % width) (by decide : 0 < tileSide)
  rw [hside] at hblock hinside ⊢
  -- Row and column by division, and the column's block by another one.
  refine ⟨i % width / 32, ?_, i / width, ?_, i % width, ?_, ?_⟩
  · rw [List.mem_range]
    omega
  · rw [List.mem_range]
    exact Nat.div_lt_of_lt_mul (by rwa [Nat.mul_comm])
  · rw [List.mem_range'_1]
    omega
  · exact (Nat.div_add_mod' i width).symm

/-- A filled tile holds the cells of its rows, which the columns must reach. -/
theorem fillTile_eq (hwidth : columns.size = width)
    (hsize : ∀ c (hc : c < columns.size), columns[c].size = height) {index rows : Nat}
    (hrows : ∀ r < rows, index * tileSide + r < height) {tile : Array α}
    (htile : tile.size = rows * width) :
    fillTile columns width index tile = .ok (Array.ofFn fun i : Fin (rows * width) =>
      transposedCell columns (index * (tileSide * width) + i)) := by
  have hcount (r : Nat) (hr : r < rows * width / width) : index * tileSide + r < height := by
    rcases Nat.eq_zero_or_pos width with rfl | hpos
    · rw [Nat.div_zero] at hr
      omega
    · rw [Nat.mul_div_cancel rows hpos] at hr
      exact hrows r hr
  have hwrites : Writes (fun i => transposedCell columns (index * tileSide * width + i))
      (rows * width) (fillTile columns width index) (fun i =>
        ∃ block ∈ List.range ((width + tileSide - 1) / tileSide),
          ∃ r ∈ List.range (rows * width / width),
            ∃ c ∈ List.range' (block * tileSide)
              (min (block * tileSide + tileSide) width - block * tileSide), i = r * width + c) := by
    unfold fillTile
    exact Writes.foldlM _ (fun block _ =>
      writes_rowsOfBlock hwidth hsize (Nat.min_le_right _ _) hcount)
  rw [← Nat.mul_assoc]
  refine hwrites.eq_ofFn (fun i hi => ?_) htile
  rw [Nat.mul_div_cancel rows (Nat.pos_of_lt_mul_left hi)]
  exact place_written hi

theorem size_transposed (columns : Array (Array α)) (height : Nat) :
    (transposed columns height).size = columns.size * height :=
  Array.size_ofFn

theorem getElem_transposed (columns : Array (Array α)) (height i : Nat)
    (h : i < (transposed columns height).size) :
    (transposed columns height)[i] = transposedCell columns i :=
  Array.getElem_ofFn h

/-- The tile with a number becomes that stretch of the transpose, whatever was in it. -/
theorem fillTile_extract (hsize : ∀ c (hc : c < columns.size), columns[c].size = height)
    {buffer : Array α} (hbuffer : buffer.size = columns.size * height) (index : Nat) :
    fillTile columns columns.size index (buffer.extract
        (index * (tileSide * columns.size)) ((index + 1) * (tileSide * columns.size))) =
      .ok ((transposed columns height).extract
        (index * (tileSide * columns.size)) ((index + 1) * (tileSide * columns.size))) := by
  -- The last tile may hold fewer rows, but it holds full ones.
  have hrows : min ((index + 1) * (tileSide * columns.size)) (columns.size * height) -
      index * (tileSide * columns.size) =
        (min ((index + 1) * tileSide) height - index * tileSide) * columns.size := by
    rw [← Nat.mul_assoc, ← Nat.mul_assoc, Nat.mul_comm columns.size height, Nat.mul_min_mul_right,
      ← Nat.sub_mul]
  have htile : (buffer.extract
      (index * (tileSide * columns.size)) ((index + 1) * (tileSide * columns.size))).size =
        (min ((index + 1) * tileSide) height - index * tileSide) * columns.size := by
    rw [Array.size_extract, hbuffer, hrows]
  rw [fillTile_eq rfl hsize (fun r hr => by omega) htile, Except.ok.injEq]
  refine Array.ext ?_ (fun i h1 h2 => ?_)
  · rw [Array.size_ofFn, Array.size_extract, size_transposed, hrows]
  · rw [Array.getElem_ofFn, Array.getElem_extract, getElem_transposed]

/-- The tiles make up the transpose, whatever order they are filled in and
    whatever the buffer held before. -/
theorem fillTiles_eq (s : Schedule) (hcolumns : 0 < columns.size)
    (hsize : ∀ c (hc : c < columns.size), columns[c].size = height) {buffer : Array α}
    (hbuffer : buffer.size = columns.size * height) :
    fillTiles s columns buffer = .ok (transposed columns height) := by
  have htile : 0 < tileSide * columns.size := Nat.mul_pos (by decide) hcolumns
  -- Every tile is filled by its own task, and what it becomes is its stretch.
  have hfilled : s.update (s.forksOver buffer.size) (fillTile columns columns.size)
      (chunksOf (tileSide * columns.size) buffer) =
        .ok (chunksOf (tileSide * columns.size) (transposed columns height)) := by
    rw [s.update_eq_pure (m := Except Violation) _ (fun i _ => (transposed columns height).extract
      (i * (tileSide * columns.size)) ((i + 1) * (tileSide * columns.size))) _ (fun i hi => by
        rw [getElem_chunksOf]
        exact fillTile_extract hsize hbuffer i)]
    refine congrArg Except.ok (Array.ext ?_ (fun i h1 h2 => ?_))
    · rw [Array.size_mapIdx, size_chunksOf, size_chunksOf, hbuffer, size_transposed]
    · rw [Array.getElem_mapIdx, getElem_chunksOf]
  simp only [fillTiles]
  rw [hfilled, ok_bind, flatten_chunksOf htile]
  rfl

theorem height_transposed (hcolumns : 0 < columns.size) (height : Nat) :
    (Matrix.mk (transposed columns height) columns.size).height = height := by
  unfold Matrix.height
  rw [size_transposed, Nat.mul_div_cancel_left height hcolumns]

theorem row_end_le (columns : Array (Array α)) {r : Nat} (hr : r < height) :
    (r + 1) * columns.size ≤ (transposed columns height).size := by
  rw [size_transposed, Nat.mul_comm]
  exact Nat.mul_le_mul_left _ hr

/-- A row is a stretch of the buffer that holds one item of each column. -/
theorem extract_transposed (columns : Array (Array α)) {r : Nat} (hr : r < height) :
    (transposed columns height).extract (r * columns.size) ((r + 1) * columns.size) =
      columns.map (·.getD r default) := by
  refine Array.ext ?_ (fun c h1 h2 => ?_)
  · rw [Array.size_extract, Nat.min_eq_left (row_end_le columns hr), Array.size_map, Nat.succ_mul,
      Nat.add_sub_cancel_left]
  · rw [Array.size_map] at h2
    have hplace := transposedCell_place (rfl : columns.size = _) r 0 h2
    have hcolumn : columns.getD c #[] = columns[c] := (Array.getElem_eq_getD #[]).symm
    rw [Nat.zero_mul, Nat.zero_add, Nat.add_zero, hcolumn] at hplace
    rw [Array.getElem_extract, Array.getElem_map, getElem_transposed, hplace]

end Tiles

variable [Item α] {columns : Array (Array α)} {height : Nat}

/-- Cells that take bytes can all be counted. -/
theorem cellCount_eq {width : Nat} (hfits : Item.bytes α = 0 → width * height < UInt64.size) :
    cellCount α width height = .ok (width * height) :=
  if_neg (fun h => Nat.not_le_of_lt (hfits h.1) h.2)

/-- The transpose of columns of one height. -/
theorem ofColumns_eq (s : Schedule) (hcolumns : 0 < columns.size) (hheight : 0 < height)
    (hsize : ∀ c (hc : c < columns.size), columns[c].size = height)
    (hfits : Item.bytes α = 0 → columns.size * height < UInt64.size) :
    ofColumns s columns = .ok ⟨transposed columns height, columns.size⟩ := by
  have hfirst : (columns.getD 0 #[]).size = height := by
    rw [← Array.getElem_eq_getD (h := hcolumns) #[], hsize 0 hcolumns]
  have hnonempty : ¬ (columns.size = 0 ∨ height = 0) := by omega
  simp only [ofColumns, hfirst]
  rw [if_neg (not_any_size_ne hsize), if_neg hnonempty, cellCount_eq hfits, ok_bind,
    fillTiles_eq s hcolumns hsize Array.size_replicate]
  rfl

end Matrix

end TraceCommit
