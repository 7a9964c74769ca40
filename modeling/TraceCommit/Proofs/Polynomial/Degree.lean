import TraceCommit.Proofs.Polynomial
import Mathlib.Order.Bounds.Basic

/-!
# The Shortest Form of a Polynomial

Many coefficient lists stand for one polynomial: behind the last coefficient that
is not zero there may be any number of zeros. The degree is where that last one
stands, found by a search from the end, and the shortest form is what the list
has up to there. Both are known from the entries, so lists that agree in all
entries, however long they are, have one shortest form. Trimming changes no entry
and neither does padding, and with that everything else follows.

## Main definitions

* `Polynomial.support`: Where the coefficients other than zero stand.

## Theorems

* `Polynomial.toNat_val_eval`: The value as a sum of numbers modulo `p`.
* `Polynomial.degree?_eq_none_iff`, `Polynomial.degree?_eq_some_iff`: The degree.
* `Polynomial.trimmed_eq_of_entry`: The shortest form is known from the entries.
* `Polynomial.extendsTo_trimmed`: Only zeros are left out of it.
* `Polynomial.shortest_form`: Values, degrees, trimming and padding are those of
  one polynomial.
* `Polynomial.no_room_for_padding`: A length that is large enough and is refused.
-/

namespace TraceCommit

open Finset

/-- The element of a number holds its remainder. -/
theorem Element.toNat_val_natCast (n : Nat) : (n : Element).val.toNat = n % fieldOrder := by
  have hresidue : toZMod (n : Element) = (n : ZMod fieldOrder) := map_natCast residueHom n
  rw [toZMod, ZMod.natCast_eq_natCast_iff'] at hresidue
  rwa [Nat.mod_eq_of_lt (toNat_val_lt _)] at hresidue

namespace Polynomial

variable {p q : Polynomial}

/-- Horner's rule gives the sum of the coefficients times the powers of the point,
    as numbers modulo `p`. -/
theorem toNat_val_eval (p : Polynomial) (point : Element) : (p.eval point).val.toNat =
    (∑ i : Fin p.coefficients.size, p.coefficients[i].val.toNat * point.val.toNat ^ i.val) %
      fieldOrder := by
  have hsum : p.eval point = ((∑ i : Fin p.coefficients.size,
      p.coefficients[i].val.toNat * point.val.toNat ^ i.val : Nat) : Element) := by
    rw [eval_eq_sum (le_refl _), sum_range, Nat.cast_sum]
    refine sum_congr rfl (fun i _ => ?_)
    rw [Nat.cast_mul, Nat.cast_pow, Element.natCast_toNat_val, Element.natCast_toNat_val,
      entry_of_lt i.isLt]
    rfl
  rw [hsum, Element.toNat_val_natCast]

/-- Where the coefficients other than zero stand. -/
def support (p : Polynomial) : Set Nat := {i | ∃ a, p.coefficients[i]? = some a ∧ a ≠ 0}

theorem mem_support_iff {i : Nat} : i ∈ p.support ↔ entry p.coefficients i ≠ 0 := by
  rw [support, Set.mem_ofPred_eq, entry, Array.getD_eq_getD_getElem?]
  cases p.coefficients[i]? with
  | none => simp
  | some a => simp

theorem lt_length_of_mem_support {i : Nat} (h : i ∈ p.support) : i < p.length := by
  by_contra hle
  exact mem_support_iff.mp h (entry_of_le (Nat.le_of_not_lt hle))

theorem lastNonzero_eq_none_iff {xs : Array Element} {n : Nat} :
    lastNonzero xs n = none ↔ ∀ i < n, entry xs i = 0 := by
  induction n with
  | zero => exact iff_of_true rfl (fun i hi => absurd hi (Nat.not_lt_zero i))
  | succ n ih =>
      rw [lastNonzero, Nat.forall_lt_succ_right]
      by_cases hn : xs.getD n 0 = 0
      · rw [if_pos hn, ih]
        exact ⟨fun h => ⟨h, hn⟩, And.left⟩
      · rw [if_neg hn]
        exact iff_of_false (Option.some_ne_none n) (fun h => hn h.2)

/-- The search from the end stops at the first coefficient that is not zero. -/
theorem lastNonzero_eq_some_iff {xs : Array Element} {n d : Nat} :
    lastNonzero xs n = some d ↔
      d < n ∧ entry xs d ≠ 0 ∧ ∀ i < n, d < i → entry xs i = 0 := by
  induction n with
  | zero => exact iff_of_false (Option.some_ne_none d).symm (fun h => Nat.not_lt_zero d h.1)
  | succ n ih =>
      rw [lastNonzero, Nat.forall_lt_succ_right]
      by_cases hn : xs.getD n 0 = 0
      · rw [if_pos hn, ih]
        -- The last one is zero, so it is neither found nor in the way.
        have hne : entry xs d ≠ 0 → d ≠ n := by
          rintro hd rfl
          exact hd hn
        constructor
        · rintro ⟨hlt, hd, habove⟩
          exact ⟨by omega, hd, habove, fun _ => hn⟩
        · rintro ⟨hlt, hd, habove, -⟩
          have hother := hne hd
          exact ⟨by omega, hd, habove⟩
      · rw [if_neg hn, Option.some.injEq]
        constructor
        · rintro rfl
          exact ⟨Nat.lt_succ_self _, hn, fun i hi hlt => by omega, fun hlt => by omega⟩
        · rintro ⟨hlt, -, -, hlast⟩
          by_contra hne
          exact hn (hlast (by omega))

/-- There is no degree exactly if all coefficients are zero. -/
theorem degree?_eq_none_iff : p.degree? = none ↔ ∀ a ∈ p.coefficients, a = 0 := by
  rw [degree?, lastNonzero_eq_none_iff, Array.forall_mem_iff_forall_getElem]
  refine forall_congr' (fun i => forall_congr' (fun hi => ?_))
  rw [entry_of_lt hi]

/-- The degree is the largest index of a coefficient other than zero. -/
theorem degree?_eq_some_iff {d : Nat} : p.degree? = some d ↔ IsGreatest p.support d := by
  rw [degree?, lastNonzero_eq_some_iff]
  constructor
  · rintro ⟨-, hd, habove⟩
    refine ⟨mem_support_iff.mpr hd, fun i hi => ?_⟩
    by_contra hlt
    exact mem_support_iff.mp hi (habove i (lt_length_of_mem_support hi) (Nat.lt_of_not_le hlt))
  · rintro ⟨hd, hgreatest⟩
    refine ⟨lt_length_of_mem_support hd, mem_support_iff.mp hd, fun i _ hlt => ?_⟩
    by_contra hi
    exact Nat.not_le_of_lt hlt (hgreatest (mem_support_iff.mpr hi))

/-- The number of coefficients up to the degree. -/
def trimmedLength (p : Polynomial) : Nat := p.degree?.elim 0 (· + 1)

theorem lt_trimmedLength_of_mem_support {i : Nat} (h : i ∈ p.support) : i < p.trimmedLength := by
  unfold trimmedLength
  cases hdegree : p.degree? with
  | none =>
      rcases h with ⟨a, ha, hne⟩
      exact absurd (degree?_eq_none_iff.mp hdegree a (Array.mem_of_getElem? ha)) hne
  | some d => exact Nat.lt_succ_of_le ((degree?_eq_some_iff.mp hdegree).2 h)

theorem trimmedLength_le_length (p : Polynomial) : p.trimmedLength ≤ p.length := by
  unfold trimmedLength
  cases hdegree : p.degree? with
  | none => exact Nat.zero_le _
  | some d => exact lt_length_of_mem_support (degree?_eq_some_iff.mp hdegree).1

theorem length_trimmed (p : Polynomial) : p.trimmed.length = p.trimmedLength :=
  Array.size_extract.trans (Nat.min_eq_left (trimmedLength_le_length p))

/-- Trimming changes no entry: what is cut off is zero. -/
theorem entry_trimmed (p : Polynomial) (i : Nat) :
    entry p.trimmed.coefficients i = entry p.coefficients i := by
  by_cases hi : i < p.trimmedLength
  · refine (entry_extract ?_).trans ?_
    · rwa [Nat.zero_add]
    · rw [Nat.zero_add]
  · have hsize : p.trimmed.coefficients.size ≤ i := (length_trimmed p).le.trans (by omega)
    have hzero : entry p.coefficients i = 0 := by
      by_contra hne
      exact hi (lt_trimmedLength_of_mem_support (mem_support_iff.mpr hne))
    rw [entry_of_le hsize, hzero]

/-- The shortest form depends on the entries alone. -/
theorem trimmed_eq_of_entry (h : ∀ i, entry q.coefficients i = entry p.coefficients i) :
    q.trimmed = p.trimmed := by
  have hlength : q.trimmed.length = p.trimmed.length := by
    rw [length_trimmed, length_trimmed, trimmedLength, trimmedLength, degree?_eq_of_entry h]
  have hcoefficients : q.trimmed.coefficients = p.trimmed.coefficients := by
    refine ext_entry hlength (fun i _ => ?_)
    rw [entry_trimmed, entry_trimmed, h]
  rw [← mk.injEq] at hcoefficients
  exact hcoefficients

/-- Only zeros are left out of the shortest form. -/
theorem extendsTo_trimmed (p : Polynomial) : p.trimmed.ExtendsTo p p.length := by
  have hle : p.trimmed.length ≤ p.length := (length_trimmed p).trans_le (trimmedLength_le_length p)
  have hback : padZeros p.length p.trimmed.coefficients = p.coefficients := by
    refine ext_entry (size_padZeros hle) (fun i _ => ?_)
    rw [entry_padZeros, entry_trimmed]
  have hpadded := extendsTo_padZeros hle
  rwa [hback] at hpadded

/-- The last coefficient of a shortest form is not zero. -/
theorem back?_trimmed (p : Polynomial) : p.trimmed.coefficients.back? ≠ some 0 := by
  have hsize : p.trimmed.coefficients.size = p.trimmedLength := length_trimmed p
  rw [Array.back?_eq_getElem?, hsize]
  unfold trimmedLength at hsize ⊢
  cases hdegree : p.degree? with
  | none =>
      rw [hdegree] at hsize
      rw [Array.getElem?_eq_none (hsize.trans_le (Nat.zero_le _))]
      exact (Option.some_ne_none 0).symm
  | some d =>
      intro hlast
      -- What stands at the degree is an entry of the polynomial.
      have hzero : entry p.trimmed.coefficients d = 0 := by
        rw [entry, Array.getD_eq_getD_getElem?]
        exact congrArg (Option.getD · 0) hlast
      rw [entry_trimmed] at hzero
      exact mem_support_iff.mp (degree?_eq_some_iff.mp hdegree).1 hzero

/-- Padding fails for its length exactly if that is less than the number of
    coefficients. -/
theorem padded_eq_error_iff {length : Nat} :
    p.padded length = .error (.polynomialTooLarge p.length length) ↔ length < p.length := by
  rw [padded_eq_ite]
  split
  · rename_i hlarge
    exact iff_of_true rfl hlarge
  · rename_i hfits
    refine iff_of_false ?_ hfits
    split
    · exact fun h => by cases h
    · exact fun h => by cases h

/-- Padding that does not fail appends zeros, and so leaves the shortest form as it
    is. -/
theorem exists_padded {length : Nat} (h : p.length ≤ length)
    (hroom : Element.byteCount * length ≤ maxSequenceBytes) :
    ∃ q, p.padded length = .ok q ∧ p.ExtendsTo q length ∧ q.trimmed = p.trimmed := by
  have hpadded : p.padded length = .ok ⟨padZeros length p.coefficients⟩ := by
    rw [padded_eq_ite, if_neg (Nat.not_lt_of_le h), if_pos hroom]
  exact ⟨_, hpadded, extendsTo_of_padded hpadded,
    trimmed_eq_of_entry (entry_padZeros length p.coefficients)⟩

/-- No memory holds more coefficients than fit into one sequence. -/
theorem padded_of_no_room {length : Nat} (h : p.length ≤ length)
    (hroom : maxSequenceBytes < Element.byteCount * length) :
    p.padded length = .error (.violation .noRoom) := by
  rw [padded_eq_ite, if_neg (Nat.not_lt_of_le h), if_neg (Nat.not_le_of_lt hroom)]

/-- A list of coefficients, whatever its length, stands for one polynomial. Its value
    is the sum over the coefficients and its degree the largest index of one that is
    not zero. Trimming leaves zeros out, as many as there are behind the degree, and
    padding appends some or is refused, for a length that is too small or that no memory
    has room for; neither changes a value, the degree or the shortest form. -/
theorem shortest_form (p : Polynomial) :
    (∀ point : Element, (p.eval point).val.toNat = (∑ i : Fin p.coefficients.size,
        p.coefficients[i].val.toNat * point.val.toNat ^ i.val) % fieldOrder) ∧
      (p.degree? = none ↔ ∀ a ∈ p.coefficients, a = 0) ∧
      (∀ d, p.degree? = some d ↔ IsGreatest p.support d) ∧
      (p.trimmed.ExtendsTo p p.length ∧ p.trimmed.coefficients.back? ≠ some 0 ∧
        p.trimmed.trimmed = p.trimmed) ∧
      ∀ length,
        (p.padded length = .error (.polynomialTooLarge p.length length) ↔ length < p.length) ∧
        (p.length ≤ length → Element.byteCount * length ≤ maxSequenceBytes →
          ∃ q, p.padded length = .ok q ∧ p.ExtendsTo q length ∧ q.trimmed = p.trimmed) ∧
        (p.length ≤ length → maxSequenceBytes < Element.byteCount * length →
          p.padded length = .error (.violation .noRoom)) := by
  refine ⟨toNat_val_eval p, degree?_eq_none_iff, fun d => degree?_eq_some_iff, ?_,
    fun length => ⟨padded_eq_error_iff, exists_padded, padded_of_no_room⟩⟩
  exact ⟨extendsTo_trimmed p, back?_trimmed p, trimmed_eq_of_entry (entry_trimmed p)⟩

/-- Two coefficients with a zero behind them, padded with another one. -/
theorem shortest_form_two :
    (mk #[1, Element.two, 0]).degree? = some 1 ∧
      IsGreatest (mk #[1, Element.two, 0]).support 1 ∧
      (mk #[1, Element.two, 0]).padded 2 = .error (.polynomialTooLarge 3 2) ∧
      (∃ q, (mk #[1, Element.two, 0]).padded 4 = .ok q ∧ q.trimmed = ⟨#[1, Element.two]⟩) ∧
      (mk #[1, Element.two, 0]).padded (2 ^ 63) = .error (.violation .noRoom) := by
  have hdegree : (mk #[1, Element.two, 0]).degree? = some 1 := by decide
  have hform := shortest_form (mk #[1, Element.two, 0])
  have hpadding := hform.2.2.2.2
  rcases (hpadding 4).2.1 (by decide) (by decide) with ⟨q, hpadded, -, htrimmed⟩
  exact ⟨hdegree, (hform.2.2.1 1).mp hdegree, (hpadding 2).1.mpr (by decide),
    ⟨q, hpadded, htrimmed⟩, (hpadding (2 ^ 63)).2.2 (by decide) (by decide)⟩

/-- Three coefficients are fewer than `2 ^ 60`, and padding them to that many neither
    succeeds nor finds the polynomial too large. -/
theorem no_room_for_padding :
    (mk #[1, Element.two, Element.ofWord 3]).length ≤ 2 ^ 60 ∧
      ¬ (∃ q, (mk #[1, Element.two, Element.ofWord 3]).padded (2 ^ 60) = .ok q) ∧
      (mk #[1, Element.two, Element.ofWord 3]).padded (2 ^ 60) = .error (.violation .noRoom) := by
  have hfits : (mk #[1, Element.two, Element.ofWord 3]).length ≤ 2 ^ 60 := by decide
  have hpadded := padded_of_no_room hfits (by decide)
  refine ⟨hfits, ?_, hpadded⟩
  rintro ⟨q, hq⟩
  rw [hpadded] at hq
  cases hq

end Polynomial

end TraceCommit
