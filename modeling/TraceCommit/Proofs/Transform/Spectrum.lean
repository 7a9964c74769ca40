import TraceCommit.Proofs.Entries

/-!
# The Algebra of the Transform

What a transform computes, as a sum, and the two facts about that sum that the
rest follows from. A sum over `2 * n` inputs is made of two sums over `n`
inputs, those at even and those at odd places, and the same two sums give the
value half a circle further on. Applied twice, the transform gives every input
back `n` times, in reflected order.

## Main definitions

* `transformSum`: The value at the point `ω ^ j`.
* `reflect`: The order in which inputs come back.
* `spectrum`: All values over the domain of `2 ^ k` points.

## Theorems

* `transformSum_lower`, `transformSum_upper`: How two sums make two others.
* `transformSum_transformSum`: The transform applied twice.
* `transformSum_reflect`: Reflecting the inputs reflects the values.
-/

namespace TraceCommit

open Finset

/-- The value at `ω ^ j` of the polynomial with the coefficients `x 0`, …,
    `x (n - 1)`. -/
noncomputable def transformSum (ω : Element) (n : Nat) (x : Nat → Element) (j : Nat) : Element :=
  ∑ t ∈ range n, x t * (ω ^ j) ^ t

variable {ω : Element} {n : Nat}

theorem transformSum_congr {x y : Nat → Element} (h : ∀ t < n, x t = y t) (j : Nat) :
    transformSum ω n x j = transformSum ω n y j := by
  unfold transformSum
  refine sum_congr rfl (fun t ht => ?_)
  rw [h t (mem_range.mp ht)]

/-- A sum of evenly many terms, two at a time. -/
theorem sum_range_pairs (f : Nat → Element) (n : Nat) :
    ∑ t ∈ range (2 * n), f t = ∑ t ∈ range n, f (2 * t) + ∑ t ∈ range n, f (2 * t + 1) := by
  induction n with
  | zero => rw [Nat.mul_zero, sum_range_zero, sum_range_zero, sum_range_zero, add_zero]
  | succ n ih =>
      rw [Nat.mul_succ, sum_range_succ, sum_range_succ, sum_range_succ, sum_range_succ, ih]
      ring

/-- The inputs at even and at odd places, each transformed with the square. -/
theorem transformSum_two_mul (ω : Element) (n : Nat) (x : Nat → Element) (j : Nat) :
    transformSum ω (2 * n) x j =
      transformSum (ω ^ 2) n (fun t => x (2 * t)) j +
        transformSum (ω ^ 2) n (fun t => x (2 * t + 1)) j * ω ^ j := by
  unfold transformSum
  -- The power of an even place is one of the square, that of an odd place has one
  -- factor more.
  rw [sum_range_pairs, sum_mul]
  refine congrArg₂ (· + ·) ?_ ?_
  · refine sum_congr rfl (fun t _ => ?_)
    ring
  · refine sum_congr rfl (fun t _ => ?_)
    ring

/-- Once around the circle the values repeat. -/
theorem transformSum_add_order (h : ω ^ n = 1) (m : Nat) (x : Nat → Element) (j : Nat) :
    transformSum ω m x (n + j) = transformSum ω m x j := by
  unfold transformSum
  rw [pow_add, h, one_mul]

/-- Two half transforms give the values on the first half of the circle. -/
theorem transformSum_lower {l : Nat} (hl : l + 1 ≤ 32) (x : Nat → Element) (j : Nat) :
    transformSum (unityRoot (l + 1)) (2 ^ (l + 1)) x j =
      transformSum (unityRoot l) (2 ^ l) (fun t => x (2 * t)) j +
        transformSum (unityRoot l) (2 ^ l) (fun t => x (2 * t + 1)) j * unityRoot (l + 1) ^ j := by
  rw [pow_succ, Nat.mul_comm, transformSum_two_mul, unityRoot_succ_sq hl]

/-- The same two give the values on the second half, since halfway around the
    circle lies minus one. -/
theorem transformSum_upper {l : Nat} (hl : l + 1 ≤ 32) (x : Nat → Element) (j : Nat) :
    transformSum (unityRoot (l + 1)) (2 ^ (l + 1)) x (2 ^ l + j) =
      transformSum (unityRoot l) (2 ^ l) (fun t => x (2 * t)) j -
        transformSum (unityRoot l) (2 ^ l) (fun t => x (2 * t + 1)) j * unityRoot (l + 1) ^ j := by
  have horder : unityRoot l ^ 2 ^ l = 1 := unityRoot_pow_order (by omega)
  rw [transformSum_lower hl, transformSum_add_order horder, transformSum_add_order horder, pow_add,
    unityRoot_succ_pow_half hl, neg_one_mul, mul_neg, sub_eq_add_neg]

/-- The place opposite to `i` on a circle of `n` places, as seen from zero. -/
def reflect (n i : Nat) : Nat := (n - i) % n

theorem reflect_lt {i : Nat} (h : i < n) : reflect n i < n :=
  Nat.mod_lt _ (by omega)

theorem reflect_zero (n : Nat) : reflect n 0 = 0 := by
  unfold reflect
  rw [Nat.sub_zero, Nat.mod_self]

theorem reflect_of_pos {i : Nat} (hpos : 0 < i) (h : i < n) : reflect n i = n - i :=
  Nat.mod_eq_of_lt (by omega)

theorem reflect_reflect {i : Nat} (h : i < n) : reflect n (reflect n i) = i := by
  rcases Nat.eq_zero_or_pos i with rfl | hpos
  · rw [reflect_zero, reflect_zero]
  · rw [reflect_of_pos hpos h, reflect_of_pos (by omega) (by omega)]
    omega

/-- Places that add up to full circles are opposite to each other. -/
theorem dvd_add_iff_eq_reflect {i t : Nat} (hi : i < n) (ht : t < n) :
    n ∣ i + t ↔ t = reflect n i := by
  rcases Nat.eq_zero_or_pos i with rfl | hpos
  · rw [reflect_zero, Nat.zero_add]
    constructor
    · intro h
      exact Nat.eq_zero_of_dvd_of_lt h ht
    · rintro rfl
      exact Nat.dvd_zero n
  · rw [reflect_of_pos hpos hi]
    constructor
    · rintro ⟨q, hq⟩
      -- The sum of two places is less than two circles.
      have hlt : n * q < n * 2 := by omega
      have hq2 : q < 2 := Nat.lt_of_mul_lt_mul_left hlt
      have hq1 : q = 1 := by
        rcases Nat.eq_zero_or_pos q with rfl | hqpos
        · omega
        · omega
      rw [hq1, Nat.mul_one] at hq
      omega
    · intro h
      have hsum : i + t = n := by omega
      rw [hsum]

theorem pow_reflect (h : ω ^ n = 1) {i : Nat} (hi : i < n) : ω ^ reflect n i = (ω ^ i)⁻¹ := by
  refine eq_inv_of_mul_eq_one_left ?_
  rcases Nat.eq_zero_or_pos i with rfl | hpos
  · rw [reflect_zero, pow_zero, mul_one]
  · have hsum : n - i + i = n := by omega
    rw [reflect_of_pos hpos hi, ← pow_add, hsum, h]

/-- The powers of a root sum to zero, unless the root is one. -/
theorem sum_pow_eq (hω : IsPrimitiveRoot ω n) (e : Nat) :
    ∑ j ∈ range n, (ω ^ e) ^ j = if n ∣ e then (n : Element) else 0 := by
  by_cases h : n ∣ e
  · have hone : ω ^ e = 1 := (hω.pow_eq_one_iff_dvd e).mpr h
    rw [if_pos h, hone, sum_congr rfl (fun j _ => one_pow j), sum_const, card_range, nsmul_one]
  · -- A geometric sum over a full circle, times a factor that is not zero, is zero.
    have hne : ω ^ e - 1 ≠ 0 := by
      intro h0
      exact h ((hω.pow_eq_one_iff_dvd e).mp (sub_eq_zero.mp h0))
    have hfull : (ω ^ e) ^ n = 1 := by
      rw [← pow_mul, Nat.mul_comm, pow_mul, hω.pow_eq_one, one_pow]
    rw [if_neg h]
    refine (mul_eq_zero.mp ?_).resolve_left hne
    rw [mul_geom_sum, hfull, sub_self]

/-- Applied twice, the transform gives every input back `n` times, reflected. -/
theorem transformSum_transformSum (hω : IsPrimitiveRoot ω n) (x : Nat → Element) {i : Nat}
    (hi : i < n) : transformSum ω n (transformSum ω n x) i = n * x (reflect n i) := by
  -- Summed over the points first, an input is met by all powers of one root.
  have hterm : ∀ t, ∑ j ∈ range n, x t * (ω ^ j) ^ t * (ω ^ i) ^ j =
      x t * if n ∣ i + t then (n : Element) else 0 := by
    intro t
    rw [← sum_pow_eq hω, mul_sum]
    refine sum_congr rfl (fun j _ => ?_)
    ring
  have hsum : transformSum ω n (transformSum ω n x) i =
      ∑ t ∈ range n, x t * if n ∣ i + t then (n : Element) else 0 := by
    unfold transformSum
    rw [sum_congr rfl (fun j _ => sum_mul (range n) (fun t => x t * (ω ^ j) ^ t) ((ω ^ i) ^ j)),
      sum_comm]
    exact sum_congr rfl (fun t _ => hterm t)
  -- Of these sums only the one for the reflected place does not vanish.
  rw [hsum, sum_eq_single_of_mem (reflect n i) (mem_range.mpr (reflect_lt hi)),
    if_pos ((dvd_add_iff_eq_reflect hi (reflect_lt hi)).mpr rfl), mul_comm]
  intro t ht hne
  have hdvd : ¬ n ∣ i + t := fun h => hne ((dvd_add_iff_eq_reflect hi (mem_range.mp ht)).mp h)
  rw [if_neg hdvd, mul_zero]

/-- Reflecting the inputs reflects the values. -/
theorem transformSum_reflect (h : ω ^ n = 1) (x : Nat → Element) {j : Nat} (hj : j < n) :
    transformSum ω n (fun t => x (reflect n t)) j = transformSum ω n x (reflect n j) := by
  have hreflect : ∀ t ∈ range n, reflect n t ∈ range n := fun t ht =>
    mem_range.mpr (reflect_lt (mem_range.mp ht))
  have hback : ∀ t ∈ range n, reflect n (reflect n t) = t := fun t ht =>
    reflect_reflect (mem_range.mp ht)
  have horder : (ω ^ j) ^ n = 1 := by rw [← pow_mul, Nat.mul_comm, pow_mul, h, one_pow]
  unfold transformSum
  refine sum_nbij' (reflect n) (reflect n) hreflect hreflect hback hback (fun t ht => ?_)
  have hlt := mem_range.mp ht
  -- Reflecting point and place inverts the power twice.
  have hpow : (ω ^ reflect n j) ^ reflect n t = (ω ^ j) ^ t := by
    rw [pow_reflect h hj, inv_pow, pow_reflect horder hlt, inv_inv]
  rw [hpow]

/-- All values over the domain of `2 ^ k` points. -/
noncomputable def spectrum (k : Nat) (x : Nat → Element) : Array Element :=
  Array.ofFn fun i : Fin (2 ^ k) => transformSum (unityRoot k) (2 ^ k) x i.val

theorem size_spectrum (k : Nat) (x : Nat → Element) : (spectrum k x).size = 2 ^ k :=
  Array.size_ofFn

theorem entry_spectrum {k i : Nat} (x : Nat → Element) (h : i < 2 ^ k) :
    entry (spectrum k x) i = transformSum (unityRoot k) (2 ^ k) x i :=
  entry_ofFn (transformSum (unityRoot k) (2 ^ k) x) h

theorem spectrum_congr {k : Nat} {x y : Nat → Element} (h : ∀ t < 2 ^ k, x t = y t) :
    spectrum k x = spectrum k y := by
  refine ext_entry ?_ (fun i hi => ?_)
  · rw [size_spectrum, size_spectrum]
  · rw [size_spectrum] at hi
    rw [entry_spectrum x hi, entry_spectrum y hi, transformSum_congr h]

end TraceCommit
