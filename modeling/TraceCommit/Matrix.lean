import TraceCommit.Access
import TraceCommit.Chunks
import TraceCommit.Parallel.Schedule
import TraceCommit.Storage

/-!
# Row-Major Matrices

A matrix whose rows lie one after another in a single buffer. Traces are held
by columns, and commitments are made to rows, so the main way to obtain a
matrix is to transpose columns. That is done in tiles: each tile is a run of
rows, filled column block by column block, so that a copy never strides far in
either direction. A large matrix forks over its tiles. What is read and what is
written is asked for by place, and a place outside the columns or outside the
tile breaks the copy off.

## Main definitions

* `Matrix`: A buffer and the width of its rows.
* `Matrix.ofFlat`: A buffer taken as rows of a width.
* `Matrix.copyCell`, `Matrix.copyRowPart`, `Matrix.fillTile`: The copy, from a
  single cell to a whole tile.
* `Matrix.fillTiles`: Fills a buffer, tile by tile.
* `Matrix.ofColumns`: The transpose of columns.
* `Matrix.row`, `Matrix.rows`, `Matrix.setCell`: Access by rows.
* `transpose`: Columns to rows.
-/

namespace TraceCommit

/-- A matrix as a buffer of consecutive rows. -/
structure Matrix (α : Type) where
  /-- The rows, one after another. -/
  values : Array α
  /-- The number of items in a row. -/
  width : Nat
deriving DecidableEq

namespace Matrix

variable {α : Type}

/-- A buffer taken as rows of the given width, which must not be zero and must
    divide the length of the buffer. -/
def ofFlat (values : Array α) (width : Nat) : Except Violation (Matrix α) :=
  if 0 < width ∧ values.size % width = 0 then .ok ⟨values, width⟩
  else .error (.rowShape values.size width)

/-- The number of rows. -/
def height (m : Matrix α) : Nat := m.values.size / m.width

/-- The row with the given number. -/
def row (m : Matrix α) (index : Nat) : Except Violation (Array α) :=
  slice m.values (index * m.width) ((index + 1) * m.width)

/-- The matrix with one cell replaced. -/
def setCell (m : Matrix α) (index column : Nat) (value : α) : Except Violation (Matrix α) := do
  let _ ← m.row index
  if column < m.width then
    return { m with values := m.values.setIfInBounds (index * m.width + column) value }
  else throw .outOfRange

/-- All rows. -/
def rows (m : Matrix α) : Array (Array α) :=
  Array.ofFn fun i : Fin m.height => m.values.extract (i * m.width) ((i + 1) * m.width)

/-- The side of a tile: its number of rows, and of columns copied at once. -/
def tileSide : Nat := 32

/-- Copies the cell in column `c` to row `r` of a tile whose first row is row
    `firstRow` of the matrix. -/
def copyCell (columns : Array (Array α)) (width firstRow r : Nat) (tile : Array α) (c : Nat) :
    Except Violation (Array α) := do
  let column ← itemAt columns c
  let item ← itemAt column (firstRow + r)
  if c < width then return tile.setIfInBounds (r * width + c) item
  else throw .outOfRange

/-- Copies row `r` of a tile, for the columns `first` to `last - 1`. The row is a
    slice of the tile. -/
def copyRowPart (columns : Array (Array α)) (width firstRow first last r : Nat)
    (tile : Array α) : Except Violation (Array α) :=
  if (r + 1) * width ≤ tile.size then
    (List.range' first (last - first)).foldlM (copyCell columns width firstRow r) tile
  else .error .outOfRange

/-- Fills a tile, the run of rows with the given number, one block of columns
    after another. -/
def fillTile (columns : Array (Array α)) (width index : Nat) (tile : Array α) :
    Except Violation (Array α) :=
  let blocks := (width + tileSide - 1) / tileSide
  (List.range blocks).foldlM (fun tile block =>
    let first := block * tileSide
    let last := min (first + tileSide) width
    (List.range (tile.size / width)).foldlM (fun tile r =>
      copyRowPart columns width (index * tileSide) first last r tile) tile) tile

/-- A buffer with all of its tiles filled. -/
def fillTiles (s : Schedule) (columns : Array (Array α)) (buffer : Array α) :
    Except Violation (Array α) := do
  let tiles := chunksOf (tileSide * columns.size) buffer
  let filled ← s.update (s.forksOver buffer.size) (fillTile columns columns.size) tiles
  return filled.flatten

/-- The number of cells of a table whose columns are there. Cells that take bytes
    are no more than memory has, so only of others there can be too many for a word. -/
def cellCount (α : Type) [Item α] (width height : Nat) : Except Violation Nat :=
  if Item.bytes α = 0 ∧ UInt64.size ≤ width * height then .error .overflow
  else .ok (width * height)

/-- The transpose of columns, which must share one height. Without columns or
    without rows the matrix is empty. -/
def ofColumns [Item α] (s : Schedule) (columns : Array (Array α)) :
    Except Violation (Matrix α) :=
  let width := columns.size
  let height := (columns.getD 0 #[]).size
  if columns.any (·.size != height) then .error .columnHeights
  else if width = 0 ∨ height = 0 then .ok ⟨#[], max width 1⟩
  else do
    let cells ← cellCount α width height
    let values ← fillTiles s columns (Array.replicate cells default)
    return ⟨values, width⟩

end Matrix

/-- The rows of the matrix with the given columns. -/
def transpose {α : Type} [Item α] (s : Schedule) (columns : Array (Array α)) :
    Except Violation (Array (Array α)) :=
  Matrix.rows <$> Matrix.ofColumns s columns

end TraceCommit
