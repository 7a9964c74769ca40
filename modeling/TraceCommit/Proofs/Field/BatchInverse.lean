import TraceCommit.Field.BatchInverse
import TraceCommit.Proofs.Field.Checked
import Mathlib.Algebra.BigOperators.Ring.List

/-!
# One Inversion for a Whole Batch

Batch inversion goes over its elements twice. On the way in it forms the products
of the initial segments and meets a zero if there is one. Otherwise none of these
products is zero, and the last one has an inverse. On the way out the running
inverse is always that of the initial product that ends with the element whose
turn it is: times the product before it, it is the inverse of that element, and
times the element, it is the inverse for the next turn.

The first element has no product before it. What is left for it is the inverse of
the product of the first element alone.

## Main definitions

* `segmentProducts`: The products of the initial segments of a list.
* `initialProduct`: The product of the first elements.

## Theorems

* `foldlM_multiplyIn`: What the way in leaves behind, and when it stops.
* `inv_initialProduct_mul`, `inv_initialProduct_mul_getElem`: One turn on the way
  out.
* `invertDown_getElem?`: What the way out puts where.
* `batchInverse_inverts`: When batch inversion fails, and what it finds.
-/

namespace TraceCommit

/-- The products of the initial segments of a list, from that of its first element
    alone to that of all elements. -/
def segmentProducts (l : List Element) : Array Element :=
  Array.ofFn fun i : Fin l.length => (l.take (i + 1)).prod

theorem size_segmentProducts (l : List Element) : (segmentProducts l).size = l.length :=
  Array.size_ofFn

theorem getElem_segmentProducts (l : List Element) (i : Nat) (h : i < (segmentProducts l).size) :
    (segmentProducts l)[i] = (l.take (i + 1)).prod :=
  Array.getElem_ofFn h

/-- An element more is a product more. -/
theorem segmentProducts_append (l : List Element) (x : Element) :
    segmentProducts (l ++ [x]) = (segmentProducts l).push (l.prod * x) := by
  refine Array.ext ?_ (fun i h1 h2 => ?_)
  · rw [Array.size_push, size_segmentProducts, size_segmentProducts, List.length_append,
      List.length_singleton]
  · rw [size_segmentProducts, List.length_append, List.length_singleton] at h1
    rw [Array.getElem_push, getElem_segmentProducts]
    by_cases hi : i < l.length
    · -- The segment ends before the new element.
      rw [dif_pos (by rwa [size_segmentProducts]), getElem_segmentProducts,
        List.take_append_of_le_length (by omega)]
    · have hall : (l ++ [x]).take (i + 1) = l ++ [x] := by
        refine List.take_of_length_le ?_
        rw [List.length_append, List.length_singleton]
        omega
      rw [dif_neg (by rwa [size_segmentProducts]), hall, List.prod_append, List.prod_singleton]

/-- The way in stops at a zero. Otherwise the products are always those of the
    elements that have had their turn. -/
theorem foldlM_multiplyIn (rest : List Element) : ∀ before : List Element,
    rest.foldlM multiplyIn (segmentProducts before, before.prod) =
      if 0 ∈ rest then .error .divisionByZero
      else .ok (segmentProducts (before ++ rest), (before ++ rest).prod) := by
  induction rest with
  | nil =>
      intro before
      rw [if_neg List.not_mem_nil, List.append_nil]
      rfl
  | cons x rest ih =>
      intro before
      rw [List.foldlM_cons]
      by_cases hx : x = 0
      · -- A zero ends the fold, whatever comes behind it.
        have hstop : multiplyIn (segmentProducts before, before.prod) x =
            .error .divisionByZero := if_pos hx
        rw [hstop, if_pos (hx ▸ List.mem_cons_self)]
        rfl
      · have hstep : multiplyIn (segmentProducts before, before.prod) x =
            .ok (segmentProducts (before ++ [x]), (before ++ [x]).prod) := by
          rw [segmentProducts_append, List.prod_append, List.prod_singleton]
          exact if_neg hx
        have hmem : 0 ∈ x :: rest ↔ 0 ∈ rest := by
          rw [List.mem_cons]
          exact or_iff_right (fun h0 => hx h0.symm)
        rw [hstep, ok_bind, ih, List.append_assoc, List.singleton_append]
        simp only [hmem]

theorem initialProducts_eq (xs : Array Element) : initialProducts xs =
    if 0 ∈ xs then .error .divisionByZero
    else .ok (segmentProducts xs.toList, xs.toList.prod) := by
  have hfold := foldlM_multiplyIn xs.toList []
  rw [List.nil_append] at hfold
  unfold initialProducts
  rw [← Array.foldlM_toList]
  simp only [← Array.mem_toList_iff]
  exact hfold

variable {xs : Array Element}

/-- The product of the first `count` elements. -/
def initialProduct (xs : Array Element) (count : Nat) : Element := (xs.toList.take count).prod

theorem initialProduct_succ {i : Nat} (hi : i < xs.size) :
    initialProduct xs (i + 1) = initialProduct xs i * xs[i] := by
  unfold initialProduct
  rw [List.prod_take_succ xs.toList i (by rwa [Array.length_toList]), Array.getElem_toList]

theorem initialProduct_size (xs : Array Element) : initialProduct xs xs.size = xs.toList.prod := by
  unfold initialProduct
  rw [← Array.length_toList, List.take_length]

theorem initialProduct_ne_zero (hzero : 0 ∉ xs) (count : Nat) : initialProduct xs count ≠ 0 :=
  List.prod_ne_zero fun h => hzero (Array.mem_toList_iff.mp (List.mem_of_mem_take h))

theorem getD_segmentProducts {i : Nat} (hi : i < xs.size) :
    (segmentProducts xs.toList).getD i 0 = initialProduct xs (i + 1) := by
  have hlt : i < (segmentProducts xs.toList).size := by
    rwa [size_segmentProducts, Array.length_toList]
  rw [← Array.getElem_eq_getD (h := hlt) 0, getElem_segmentProducts]
  rfl

/-- With the product before it taken out, the running inverse is that of the element. -/
theorem inv_initialProduct_mul (hzero : 0 ∉ xs) {i : Nat} (hi : i < xs.size) :
    (initialProduct xs (i + 1))⁻¹ * initialProduct xs i = xs[i]⁻¹ := by
  rw [initialProduct_succ hi, mul_inv_rev, mul_assoc,
    inv_mul_cancel₀ (initialProduct_ne_zero hzero i), mul_one]

/-- With the element taken out, it is the running inverse for the next turn. -/
theorem inv_initialProduct_mul_getElem (hzero : 0 ∉ xs) {i : Nat} (hi : i < xs.size) :
    (initialProduct xs (i + 1))⁻¹ * xs[i] = (initialProduct xs i)⁻¹ := by
  have helement : xs[i] ≠ 0 := fun h => hzero (h ▸ Array.getElem_mem hi)
  rw [initialProduct_succ hi, mul_inv, mul_assoc, inv_mul_cancel₀ helement, mul_one]

/-- The way out replaces the entries up to number `last` by inverses and leaves
    the others as they are, if it starts with the inverse of the product that ends
    with number `last`. -/
theorem invertDown_getElem? (hzero : 0 ∉ xs) (last : Nat) : ∀ (inverses : Array Element),
    last < xs.size → inverses.size = xs.size → ∀ i (hi : i < xs.size),
      (invertDown xs (segmentProducts xs.toList) last (initialProduct xs (last + 1))⁻¹
        inverses)[i]? = if i ≤ last then some xs[i]⁻¹ else inverses[i]? := by
  induction last with
  | zero =>
      intro inverses hlast hsize i hi
      -- The product that ends with the first element is that element.
      have hfirst : initialProduct xs (0 + 1) = xs[0] := by
        rw [initialProduct_succ hlast, initialProduct, List.take_zero, List.prod_nil, one_mul]
      unfold invertDown
      rw [hfirst]
      by_cases h0 : i = 0
      · subst h0
        rw [if_pos (Nat.le_refl 0), Array.getElem?_setIfInBounds_self_of_lt (by rwa [hsize])]
      · rw [if_neg (by omega), Array.getElem?_setIfInBounds_ne (fun h => h0 h.symm)]
  | succ last ih =>
      intro inverses hlast hsize i hi
      unfold invertDown
      rw [getD_segmentProducts (Nat.lt_of_succ_lt hlast), inv_initialProduct_mul hzero hlast,
        ← Array.getElem_eq_getD (h := hlast) 0, inv_initialProduct_mul_getElem hzero hlast,
        ih _ (Nat.lt_of_succ_lt hlast) (by rw [Array.size_setIfInBounds, hsize]) i hi]
      -- Below the entry just written it is the later turns that write.
      by_cases hle : i ≤ last
      · rw [if_pos hle, if_pos (Nat.le_succ_of_le hle)]
      · rw [if_neg hle]
        by_cases heq : last + 1 = i
        · subst heq
          rw [if_pos (Nat.le_refl _), Array.getElem?_setIfInBounds_self_of_lt (by rwa [hsize])]
        · rw [if_neg (by omega), Array.getElem?_setIfInBounds_ne heq]

theorem size_invertDown (xs products : Array Element) (last : Nat) :
    ∀ (inverse : Element) (inverses : Array Element),
      (invertDown xs products last inverse inverses).size = inverses.size := by
  induction last with
  | zero =>
      intro inverse inverses
      exact Array.size_setIfInBounds
  | succ last ih =>
      intro inverse inverses
      unfold invertDown
      rw [ih, Array.size_setIfInBounds]

/-- Batch inversion fails where the way in does. Otherwise all inverses are found. -/
theorem batchInverse_eq (xs : Array Element) : batchInverse xs =
    if 0 ∈ xs then .error .divisionByZero else .ok (xs.map (·⁻¹)) := by
  by_cases hempty : xs.isEmpty = true
  · rw [Array.isEmpty_iff.mp hempty, if_neg (Array.not_mem_empty 0), Array.map_empty]
    rfl
  · unfold batchInverse
    rw [if_neg hempty, initialProducts_eq]
    by_cases hzero : 0 ∈ xs
    · rw [if_pos hzero, if_pos hzero]
      rfl
    · have hpos : 0 < xs.size := Array.size_pos_iff.mpr (fun h => hempty (Array.isEmpty_iff.mpr h))
      -- The product of all elements has an inverse, with which the way out starts.
      have hinverse : xs.toList.prod.inverse = .ok (initialProduct xs xs.size)⁻¹ := by
        rw [← initialProduct_size, Element.inverse_eq, if_neg (initialProduct_ne_zero hzero _)]
      have hinverses := invertDown_getElem? hzero (xs.size - 1) (Array.replicate xs.size 0)
        (by omega) Array.size_replicate
      rw [Nat.sub_add_cancel hpos] at hinverses
      simp only [if_neg hzero, ok_bind, hinverse]
      refine congrArg Except.ok (Array.ext_getElem? fun i => ?_)
      by_cases hi : i < xs.size
      · rw [hinverses i hi, if_pos (by omega), Array.getElem?_map, Array.getElem?_eq_getElem hi,
          Option.map_some]
      · rw [Array.getElem?_eq_none (by rw [size_invertDown, Array.size_replicate]; omega),
          Array.getElem?_eq_none (by rw [Array.size_map]; omega)]

/-- Batch inversion fails, as a division by zero, if there is a zero among the
    elements, and in no other case. Otherwise it finds as many elements as it was
    given, and each of them is what inversion finds for the one in its place: the
    canonical element whose product with it is one. -/
theorem batchInverse_inverts (xs : Array Element) :
    (∀ e, batchInverse xs = .error e ↔ e = .divisionByZero ∧ 0 ∈ xs) ∧
      (0 ∉ xs → ∃ ys, batchInverse xs = .ok ys ∧ ∃ hsize : ys.size = xs.size,
        ∀ i (hi : i < xs.size), xs[i].inverse = .ok ys[i] ∧
          xs[i].val.toNat * ys[i].val.toNat % fieldOrder = 1) := by
  rw [batchInverse_eq]
  constructor
  · intro e
    by_cases hzero : 0 ∈ xs
    · rw [if_pos hzero, Except.error.injEq, and_iff_left hzero, eq_comm]
    · rw [if_neg hzero]
      exact iff_of_false (by simp only [reduceCtorEq, not_false_eq_true]) (fun h => hzero h.2)
  · intro hzero
    refine ⟨xs.map (·⁻¹), if_neg hzero, Array.size_map, fun i hi => ?_⟩
    have helement : xs[i] ≠ 0 := fun h => hzero (h ▸ Array.getElem_mem hi)
    rw [Array.getElem_map, Element.inverse_eq, if_neg helement, Element.mul_val_eq_one_iff]
    exact ⟨rfl, mul_inv_cancel₀ helement⟩

/-- Seven and two: the inverse of two. -/
theorem batchInverse_inverts_two :
    0 ∉ #[Element.generator, Element.two] ∧
      ∃ ys, batchInverse #[Element.generator, Element.two] = .ok ys ∧
        ∃ y, ys[1]? = some y ∧ Element.two.inverse = .ok y ∧
          Element.two.val.toNat * y.val.toNat % fieldOrder = 1 := by
  have hzero : 0 ∉ #[Element.generator, Element.two] := by
    rw [← Array.mem_toList_iff]
    decide
  rcases (batchInverse_inverts _).2 hzero with ⟨ys, hys, hsize, hinverses⟩
  have hlt : 1 < ys.size := by
    rw [hsize]
    decide
  exact ⟨hzero, ys, hys, ys[1], Array.getElem?_eq_getElem hlt, hinverses 1 (by decide)⟩

end TraceCommit
