import TraceCommit.Chunks
import Mathlib.Data.List.Basic

/-!
# Cutting and Joining

What becomes of a sequence that is cut into pieces, worked on piece by piece
and joined again. Joining undoes cutting, and in a join of pieces of one size
every item is found by dividing its index by that size.

## Theorems

* `flatten_chunksOf`: Joining the pieces gives the sequence back.
* `flatten_ofFn_extract`: So it does for any number of them.
* `size_flatten_of_uniform`, `getElem?_flatten_of_uniform`: Joins of pieces of
  one size.
-/

namespace TraceCommit

variable {α : Type}

theorem size_chunksOf (size : Nat) (xs : Array α) :
    (chunksOf size xs).size = (xs.size + size - 1) / size :=
  Array.size_ofFn

theorem getElem_chunksOf (size : Nat) (xs : Array α) (i : Nat) (h : i < (chunksOf size xs).size) :
    (chunksOf size xs)[i] = xs.extract (i * size) ((i + 1) * size) :=
  Array.getElem_ofFn h

/-- Consecutive pieces, joined from the first one on. -/
theorem flatten_ofFn_extract (size : Nat) (xs : Array α) (count : Nat) :
    (Array.ofFn fun i : Fin count => xs.extract (i * size) ((i + 1) * size)).flatten =
      xs.extract 0 (count * size) := by
  induction count with
  | zero => rw [Array.ofFn_zero, Array.flatten_empty, Nat.zero_mul, Array.extract_zero]
  | succ count ih =>
      have hle : count * size ≤ (count + 1) * size := Nat.mul_le_mul_right size (Nat.le_succ count)
      -- The last piece starts where the join of the others ends.
      rw [Array.ofFn_succ, Array.flatten_push]
      simp only [Fin.val_castSucc]
      rw [ih, Array.extract_append_extract, Nat.min_eq_left (Nat.zero_le _), Nat.max_eq_right hle]

/-- The pieces leave nothing out. -/
theorem le_size_chunksOf_mul {size : Nat} (hsize : 0 < size) (xs : Array α) :
    xs.size ≤ (chunksOf size xs).size * size := by
  have hdiv := Nat.div_add_mod (xs.size + size - 1) size
  have hmod := Nat.mod_lt (xs.size + size - 1) hsize
  rw [Nat.mul_comm] at hdiv
  rw [size_chunksOf]
  omega

/-- Joining the pieces of a sequence gives it back. -/
theorem flatten_chunksOf {size : Nat} (hsize : 0 < size) (xs : Array α) :
    (chunksOf size xs).flatten = xs := by
  have hcover := le_size_chunksOf_mul hsize xs
  rw [size_chunksOf] at hcover
  unfold chunksOf
  rw [flatten_ofFn_extract, Array.extract_eq_self_of_le hcover]

/-- In a join of lists of one length, an item is found by division. -/
theorem getElem?_flatten_list {n : Nat} (blocks : List (List α)) :
    (∀ block ∈ blocks, block.length = n) → ∀ (b j : Nat), j < n →
      blocks.flatten[b * n + j]? = blocks[b]?.bind (·[j]?) := by
  induction blocks with
  | nil =>
      intro _ b j _
      rfl
  | cons block rest ih =>
      intro hlength b j hj
      have hblock := hlength block List.mem_cons_self
      rw [List.flatten_cons]
      cases b with
      | zero =>
          rw [Nat.zero_mul, Nat.zero_add, List.getElem?_append_left (by omega)]
          rfl
      | succ b =>
          -- Behind the first list the places are those of the rest.
          have hindex : (b + 1) * n + j - block.length = b * n + j := by
            rw [hblock, Nat.succ_mul]
            omega
          have hbehind : block.length ≤ (b + 1) * n + j := by
            rw [hblock, Nat.succ_mul]
            omega
          rw [List.getElem?_append_right hbehind, hindex,
            ih (fun l hl => hlength l (List.mem_cons_of_mem block hl)) b j hj]
          rfl

/-- In a join of pieces of one size, an item is found by division. -/
theorem getElem?_flatten_of_uniform {n : Nat} (blocks : Array (Array α))
    (hsize : ∀ b (hb : b < blocks.size), blocks[b].size = n) (b j : Nat) (hb : b < blocks.size)
    (hj : j < n) : blocks.flatten[b * n + j]? = blocks[b][j]? := by
  have hlength : ∀ block ∈ blocks.toList.map Array.toList, block.length = n := by
    intro block hmem
    rcases List.mem_map.mp hmem with ⟨xs, hxs, rfl⟩
    rcases Array.getElem_of_mem (Array.mem_toList_iff.mp hxs) with ⟨i, hi, rfl⟩
    exact hsize i hi
  have hlist := getElem?_flatten_list _ hlength b j hj
  rw [← Array.getElem?_toList, Array.toList_flatten, hlist, List.getElem?_map,
    Array.getElem?_toList, Array.getElem?_eq_getElem hb, Option.map_some, Option.bind_some,
    Array.getElem?_toList]

/-- The length of a join of pieces of one size. -/
theorem size_flatten_of_uniform {n : Nat} (blocks : Array (Array α))
    (hsize : ∀ b (hb : b < blocks.size), blocks[b].size = n) :
    blocks.flatten.size = blocks.size * n := by
  have hsizes : blocks.map Array.size = Array.replicate blocks.size n := by
    refine Array.ext ?_ (fun i h1 h2 => ?_)
    · rw [Array.size_map, Array.size_replicate]
    · rw [Array.getElem_map, Array.getElem_replicate]
      exact hsize i (by rwa [Array.size_map] at h1)
  rw [Array.size_flatten, hsizes, Array.sum_replicate_nat]

end TraceCommit
