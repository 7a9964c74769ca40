import TraceCommit.Proofs.Entries
import TraceCommit.Proofs.Word.Bits

/-!
# Zeros Behind the Coefficients

Zeros behind the coefficients make no difference to a polynomial: its value is a
sum over the entries, and its degree is the place of the last entry that is not
zero. `padded` only ever appends them, because it asks first whether the new
length is at least the old one.

`extended` does not ask. It shifts the old length as a word, takes what is left
in the word for the new length, and appends zeros up to it or cuts the
coefficients off at it. So it appends zeros exactly as long as the shifted length
fits the word. Two coefficients and a rate of 63 come to `2 ^ 64`, of which the
word keeps nothing, and the polynomial that comes back is zero.

## Main definitions

* `Polynomial.ExtendsTo`: The same polynomial, with so many coefficients.
* `Polynomial.extendedLength`: The length that an extension stands for.
* `PaddingEnds`: How appending zeros by a rate ends.

## Theorems

* `Polynomial.eval_eq_of_entry`, `Polynomial.degree?_eq_of_entry`: Value and
  degree are known from the entries.
* `Polynomial.extendsTo_of_padded`: Padding to a length loses nothing.
* `Polynomial.extended_eq_ite`: Padding by a rate, in closed form.
* `Polynomial.extended_outcomes`: It ends in these ways, and loses nothing
  exactly if no bit of the length is lost.
* `Polynomial.extended_loses_coefficients`: Two coefficients that are lost.
-/

namespace TraceCommit

namespace Polynomial

variable {p q : Polynomial}

/-- The value depends on the entries alone, not on how many are held. -/
theorem eval_eq_of_entry (h : ∀ i, entry q.coefficients i = entry p.coefficients i)
    (point : Element) : q.eval point = p.eval point := by
  rw [eval_eq_sum (Nat.le_max_left q.length p.length),
    eval_eq_sum (Nat.le_max_right q.length p.length)]
  refine Finset.sum_congr rfl (fun t _ => ?_)
  rw [h]

theorem lastNonzero_congr {xs ys : Array Element} (h : ∀ i, entry xs i = entry ys i) (n : Nat) :
    lastNonzero xs n = lastNonzero ys n := by
  induction n with
  | zero => rfl
  | succ n ih =>
      have hn : xs.getD n 0 = ys.getD n 0 := h n
      rw [lastNonzero, lastNonzero, hn, ih]

/-- The search passes over everything behind the end. -/
theorem lastNonzero_of_size_le {xs : Array Element} {n : Nat} (h : xs.size ≤ n) :
    lastNonzero xs n = lastNonzero xs xs.size := by
  induction n, h using Nat.le_induction with
  | base => rfl
  | succ n hle ih =>
      have hn : xs.getD n 0 = 0 := entry_of_le hle
      rw [lastNonzero, if_pos hn, ih]

/-- The degree depends on the entries alone. -/
theorem degree?_eq_of_entry (h : ∀ i, entry q.coefficients i = entry p.coefficients i) :
    q.degree? = p.degree? := by
  unfold degree?
  -- Both searches can start behind the longer of the two.
  rw [length, length, ← lastNonzero_of_size_le (Nat.le_max_left q.length p.length),
    ← lastNonzero_of_size_le (Nat.le_max_right q.length p.length)]
  exact lastNonzero_congr h _

/-- The second polynomial is the first with zeros behind its coefficients, `count`
    of them in all, and has its values and its degree. -/
structure ExtendsTo (p q : Polynomial) (count : Nat) : Prop where
  length_eq : q.length = count
  coefficients_eq : ∃ zeros, q.coefficients = p.coefficients ++ Array.replicate zeros 0
  eval_eq : ∀ point, q.eval point = p.eval point
  degree?_eq : q.degree? = p.degree?

theorem extendsTo_padZeros {count : Nat} (h : p.length ≤ count) :
    p.ExtendsTo ⟨padZeros count p.coefficients⟩ count := by
  have hentry := entry_padZeros count p.coefficients
  exact ⟨size_padZeros h, ⟨_, rfl⟩, eval_eq_of_entry hentry, degree?_eq_of_entry hentry⟩

/-- There is only one way to put zeros behind the coefficients. -/
theorem ExtendsTo.eq_padZeros {count : Nat} (h : p.ExtendsTo q count) :
    q = ⟨padZeros count p.coefficients⟩ := by
  rcases h.coefficients_eq with ⟨zeros, hzeros⟩
  have hsize : p.coefficients.size + zeros = count := by
    have hlength := h.length_eq
    unfold length at hlength
    rwa [hzeros, Array.size_append, Array.size_replicate] at hlength
  have hcount : count - p.coefficients.size = zeros := by omega
  cases q
  rw [mk.injEq, padZeros, hcount]
  exact hzeros

/-- Padding to a length asks for no fewer coefficients than there are, and for room. -/
theorem padded_eq_ite (p : Polynomial) (count : Nat) : p.padded count =
    if count < p.length then .error (.polynomialTooLarge p.length count)
    else if Element.byteCount * count ≤ maxSequenceBytes then
      .ok ⟨padZeros count p.coefficients⟩
    else .error (.violation .noRoom) := by
  unfold padded
  by_cases hlarge : count < p.length
  · rw [if_pos hlarge, if_pos hlarge]
    rfl
  · rw [if_neg hlarge, if_neg hlarge]
    unfold requireRoom
    by_cases hroom : Element.byteCount * count ≤ maxSequenceBytes
    · rw [if_pos hroom, if_pos hroom]
      rfl
    · rw [if_neg hroom, if_neg hroom]
      rfl

/-- Padding to a length either is refused or loses nothing. -/
theorem extendsTo_of_padded {count : Nat} (h : p.padded count = .ok q) : p.ExtendsTo q count := by
  rw [padded_eq_ite] at h
  split at h
  · cases h
  · rename_i hfits
    split at h
    · cases h
      exact extendsTo_padZeros (Nat.le_of_not_lt hfits)
    · cases h

/-- The number of coefficients that an extension stands for. No word bounds it. -/
def extendedLength (p : Polynomial) (rateBits : UInt64) : Nat := p.length * 2 ^ rateBits.toNat

/-- What a word keeps of that number. -/
def keptLength (p : Polynomial) (rateBits : UInt64) : Nat :=
  p.extendedLength rateBits % UInt64.size

/-- The coefficients are cut off or padded at the length that the word keeps. -/
theorem extended_eq_ite (p : Polynomial) (rateBits : UInt64) : p.extended rateBits =
    if 64 ≤ rateBits.toNat then .error .overflow
    else if Element.byteCount * p.keptLength rateBits ≤ maxSequenceBytes then
      .ok ⟨padZeros (p.keptLength rateBits) (p.coefficients.extract 0 (p.keptLength rateBits))⟩
    else .error .noRoom := by
  unfold extended
  by_cases hrate : 64 ≤ rateBits.toNat
  · rw [if_pos hrate, Checked.shiftLeft_of_le _ hrate]
    rfl
  · have hkept : (UInt64.ofNat (p.length * 2 ^ rateBits.toNat)).toNat = p.keptLength rateBits :=
      UInt64.toNat_ofNat'
    rw [if_neg hrate, Checked.shiftLeft_of_lt p.length (Nat.lt_of_not_le hrate), ok_bind, hkept]
    unfold requireRoom
    by_cases hroom : Element.byteCount * p.keptLength rateBits ≤ maxSequenceBytes
    · rw [if_pos hroom, if_pos hroom]
      rfl
    · rw [if_neg hroom, if_neg hroom]
      rfl

theorem length_le_extendedLength (p : Polynomial) (rateBits : UInt64) :
    p.length ≤ p.extendedLength rateBits :=
  Nat.le_mul_of_pos_right _ (Nat.two_pow_pos _)

/-- A length that fits the word is kept, and nothing is cut off. -/
theorem extract_keptLength {rateBits : UInt64} (h : p.extendedLength rateBits < UInt64.size) :
    p.keptLength rateBits = p.extendedLength rateBits ∧
      p.coefficients.extract 0 (p.keptLength rateBits) = p.coefficients := by
  have hkept : p.keptLength rateBits = p.extendedLength rateBits := Nat.mod_eq_of_lt h
  refine ⟨hkept, Array.extract_eq_self_of_le ?_⟩
  rw [hkept]
  exact length_le_extendedLength p rateBits

end Polynomial

/-- How appending zeros by a rate ends: the shift is refused, the room is refused,
    or there is a result. The result has all coefficients if the length fits the
    word, and otherwise those that the length left in the word has room for. -/
inductive PaddingEnds (p : Polynomial) (rateBits : UInt64) : Except Violation Polynomial → Prop
  | overflow (hrate : 64 ≤ rateBits.toNat) : PaddingEnds p rateBits (.error .overflow)
  | noRoom (hrate : rateBits.toNat < 64)
      (hroom : maxSequenceBytes < Element.byteCount * p.keptLength rateBits) :
      PaddingEnds p rateBits (.error .noRoom)
  | padded {q : Polynomial} (hrate : rateBits.toNat < 64)
      (hroom : Element.byteCount * p.keptLength rateBits ≤ maxSequenceBytes)
      (hfits : p.extendedLength rateBits < UInt64.size)
      (hall : p.ExtendsTo q (p.extendedLength rateBits)) : PaddingEnds p rateBits (.ok q)
  | cut {q : Polynomial} (hrate : rateBits.toNat < 64)
      (hroom : Element.byteCount * p.keptLength rateBits ≤ maxSequenceBytes)
      (hlost : UInt64.size ≤ p.extendedLength rateBits)
      (hkept : (Polynomial.mk (p.coefficients.extract 0 (p.keptLength rateBits))).ExtendsTo q
        (p.keptLength rateBits)) : PaddingEnds p rateBits (.ok q)

namespace Polynomial

theorem paddingEnds_extended (p : Polynomial) (rateBits : UInt64) :
    PaddingEnds p rateBits (p.extended rateBits) := by
  rw [extended_eq_ite]
  split
  · rename_i hrate
    exact .overflow hrate
  · rename_i hrate
    rw [Nat.not_le] at hrate
    split
    · rename_i hroom
      by_cases hfits : p.extendedLength rateBits < UInt64.size
      · rcases extract_keptLength hfits with ⟨hkept, hwhole⟩
        refine .padded hrate hroom hfits ?_
        rw [hwhole, hkept]
        exact extendsTo_padZeros (length_le_extendedLength p rateBits)
      · refine .cut hrate hroom (Nat.le_of_not_lt hfits) (extendsTo_padZeros ?_)
        show (p.coefficients.extract 0 (p.keptLength rateBits)).size ≤ _
        rw [Array.size_extract]
        omega
    · rename_i hroom
      exact .noRoom hrate (Nat.lt_of_not_le hroom)

theorem extended_eq_of_paddingEnds {rateBits : UInt64} {result : Except Violation Polynomial}
    (h : PaddingEnds p rateBits result) : p.extended rateBits = result := by
  rw [extended_eq_ite]
  cases h with
  | overflow hrate => rw [if_pos hrate]
  | noRoom hrate hroom => rw [if_neg (Nat.not_le_of_lt hrate), if_neg (Nat.not_le_of_lt hroom)]
  | padded hrate hroom hfits hall =>
      rcases extract_keptLength hfits with ⟨hkept, hwhole⟩
      rw [if_neg (Nat.not_le_of_lt hrate), if_pos hroom, hwhole, hkept, hall.eq_padZeros]
  | cut hrate hroom _ hkept =>
      rw [if_neg (Nat.not_le_of_lt hrate), if_pos hroom, hkept.eq_padZeros]

/-- Appending zeros by any rate ends in one of these ways and says which. What comes
    back has all coefficients, as many zeros as the rate asks for, and so the values
    and the degree of the polynomial, exactly if the new length fits the word. -/
theorem extended_outcomes (p : Polynomial) (rateBits : UInt64) :
    (∀ result, p.extended rateBits = result ↔ PaddingEnds p rateBits result) ∧
      ∀ q, p.extended rateBits = .ok q →
        (p.ExtendsTo q (p.extendedLength rateBits) ↔ p.extendedLength rateBits < UInt64.size) := by
  constructor
  · intro result
    constructor
    · rintro rfl
      exact paddingEnds_extended p rateBits
    · exact extended_eq_of_paddingEnds
  · intro q hq
    have hends := paddingEnds_extended p rateBits
    rw [hq] at hends
    cases hends with
    | padded _ _ hfits hall => exact iff_of_true hall hfits
    | cut _ _ hlost hkept =>
        refine iff_of_false (fun hall => ?_) (Nat.not_lt_of_le hlost)
        -- It would have to be as long as the word keeps and as long as the word cannot hold.
        have hword : p.keptLength rateBits < UInt64.size := Nat.mod_lt _ (by decide)
        have hsame := hall.length_eq.symm.trans hkept.length_eq
        omega

/-- Two coefficients and a rate of one come to four. -/
theorem extended_outcomes_two :
    (mk #[1, Element.two]).extended 1 = .ok ⟨#[1, Element.two, 0, 0]⟩ ∧
      (mk #[1, Element.two]).ExtendsTo ⟨#[1, Element.two, 0, 0]⟩ 4 := by
  have hrun : (mk #[1, Element.two]).extended 1 = .ok ⟨#[1, Element.two, 0, 0]⟩ := by rfl
  exact ⟨hrun, ((extended_outcomes _ 1).2 _ hrun).mpr (by decide)⟩

/-- Two coefficients and a rate of 63 come to `2 ^ 64`, of which the word keeps
    nothing: what comes back is the zero polynomial, and the degree is lost. -/
theorem extended_loses_coefficients :
    (mk #[1, Element.two]).extended 63 = .ok ⟨#[]⟩ ∧
      ¬ (mk #[1, Element.two]).ExtendsTo ⟨#[]⟩ (2 * 2 ^ 63) ∧
      (mk #[1, Element.two]).degree? = some 1 ∧ (mk #[]).degree? = none := by
  refine ⟨by rfl, fun h => ?_, by decide, by decide⟩
  cases h.length_eq

end Polynomial

end TraceCommit
