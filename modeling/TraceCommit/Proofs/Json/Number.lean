import TraceCommit.Json.Token
import Mathlib.Data.List.Basic
import Mathlib.Data.List.TakeWhile

/-!
# Spelled Numbers Read Back

The text of a spelled number, with some text behind it, is read as that number
and leaves that text. Two things are needed. The number has to be spelled by
the rules: digits wherever digits are due, and no leading zero. And the text
behind it must not go on as if it belonged to the number.

The parts of a number are read one after the other, each up to a character that
cannot be a part of it, so every part has its own lemma about what it leaves.

## Main definitions

* `IsDigits`: A sequence of digits, not empty.
* `NumberLiteral.Spelled`: A number spelled by the rules.
* `EndsNumber`: A text that no number goes on with.

## Theorems

* `NumberLiteral.spelled_ofNat`, `NumberLiteral.word?_ofWord`: Written words.
* `scanNumber_render`: A spelled number reads back.
-/

namespace TraceCommit

namespace Json

/-- A sequence of decimal digits, not empty. -/
def IsDigits (digits : List Char) : Prop := digits ≠ [] ∧ ∀ c ∈ digits, c.isDigit = true

/-- A text that starts with no digit. -/
def NoDigit (text : List Char) : Prop := ∀ c ∈ text.head?, c.isDigit = false

/-- A text that a number before it does not go on with. -/
def EndsNumber (text : List Char) : Prop :=
  ∀ c ∈ text.head?, c.isDigit = false ∧ c ≠ '.' ∧ c ≠ 'e' ∧ c ≠ 'E'

/-- A number spelled by the rules. -/
structure NumberLiteral.Spelled (n : NumberLiteral) : Prop where
  /-- There are digits before the point, -/
  whole : IsDigits n.whole
  /-- of which the first is zero only if it is alone. -/
  no_leading_zero : n.whole.head? = some '0' → n.whole = ['0']
  /-- Behind a point there are digits, -/
  fraction : ∀ digits ∈ n.fraction, IsDigits digits
  /-- and so there are in an exponent. -/
  exponent : ∀ e ∈ n.exponent, IsDigits e.digits

variable {digits text rest : List Char}

theorem EndsNumber.noDigit (h : EndsNumber text) : NoDigit text := fun c hc => (h c hc).1

/-- Digits are taken up to the first character that is none. -/
theorem takeWhile_digits (hdigits : ∀ c ∈ digits, c.isDigit = true) (hrest : NoDigit rest) :
    (digits ++ rest).takeWhile Char.isDigit = digits ∧
      (digits ++ rest).dropWhile Char.isDigit = rest := by
  rw [List.takeWhile_append_of_pos hdigits, List.dropWhile_append_of_pos hdigits]
  cases rest with
  | nil => simp
  | cons c rest =>
      have hc : ¬ c.isDigit = true := by rw [hrest c rfl]; exact Bool.false_ne_true
      rw [List.takeWhile_cons_of_neg hc, List.dropWhile_cons_of_neg hc, List.append_nil]
      exact ⟨rfl, rfl⟩

theorem IsDigits.not_isEmpty (h : IsDigits digits) : digits.isEmpty = false := by
  cases digits with
  | nil => exact absurd rfl h.1
  | cons c rest => rfl

/-- The text of an exponent. -/
def renderExponent : Option Exponent → List Char
  | some e => 'e' :: (if e.negative then '-' else '+') :: e.digits
  | none => []

/-- The text of a fraction. -/
def renderFraction : Option (List Char) → List Char
  | some digits => '.' :: digits
  | none => []

theorem NumberLiteral.render_eq (n : NumberLiteral) : n.render =
    (if n.negative then ['-'] else []) ++
      (n.whole ++ (renderFraction n.fraction ++ renderExponent n.exponent)) := by
  rw [render, List.append_assoc, List.append_assoc]
  rfl

theorem scanExponent_render {exponent : Option Exponent}
    (hdigits : ∀ e ∈ exponent, IsDigits e.digits) (hrest : EndsNumber rest) :
    scanExponent (renderExponent exponent ++ rest) = some (exponent, rest) := by
  cases exponent with
  | none =>
      rw [renderExponent, List.nil_append]
      cases rest with
      | nil => rfl
      | cons c rest =>
          have hc := hrest c rfl
          unfold scanExponent
          exact if_neg (not_or_intro hc.2.2.1 hc.2.2.2)
  | some e =>
      have he := hdigits e rfl
      rcases e with ⟨negative, digits⟩
      rcases takeWhile_digits he.2 hrest.noDigit with ⟨htake, hdrop⟩
      cases negative with
      | false =>
          simp only [renderExponent, Bool.false_eq_true, if_false, List.cons_append, scanExponent,
            true_or, if_true, htake, hdrop, he.not_isEmpty]
      | true =>
          simp only [renderExponent, if_true, List.cons_append, scanExponent, true_or, htake,
            hdrop, he.not_isEmpty, Bool.false_eq_true, if_false]

/-- Behind the digits before the point comes none that could be taken for one of
    them. -/
theorem noDigit_renderExponent (exponent : Option Exponent) (hrest : EndsNumber rest) :
    NoDigit (renderExponent exponent ++ rest) := by
  cases exponent with
  | none => exact hrest.noDigit
  | some e =>
      intro c hc
      cases hc
      rfl

theorem noDigit_renderFraction {fraction : Option (List Char)} (hrest : NoDigit rest) :
    NoDigit (renderFraction fraction ++ rest) := by
  cases fraction with
  | none => exact hrest
  | some digits =>
      intro c hc
      cases hc
      rfl

theorem scanFraction_render {fraction : Option (List Char)}
    (hdigits : ∀ digits ∈ fraction, IsDigits digits) (hrest : NoDigit rest)
    (hpoint : rest.head? ≠ some '.') :
    scanFraction (renderFraction fraction ++ rest) = some (fraction, rest) := by
  cases fraction with
  | none =>
      rw [renderFraction, List.nil_append, scanFraction]
      intro tail htail
      rw [htail] at hpoint
      exact hpoint rfl
  | some digits =>
      rcases takeWhile_digits (hdigits digits rfl).2 hrest with ⟨htake, hdrop⟩
      simp only [renderFraction, List.cons_append, scanFraction, htake, hdrop,
        (hdigits digits rfl).not_isEmpty, Bool.false_eq_true, if_false]

/-- The digits before the point, with the sign already taken off. -/
def scanWhole (text : List Char) : Option (List Char × List Char) :=
  match text with
  | '0' :: rest => some (['0'], rest)
  | _ =>
    let digits := text.takeWhile Char.isDigit
    if digits.isEmpty then none else some (digits, text.dropWhile Char.isDigit)

theorem scanWhole_of_ne (h : ∀ rest, text = '0' :: rest → False) : scanWhole text =
    if (text.takeWhile Char.isDigit).isEmpty then none
    else some (text.takeWhile Char.isDigit, text.dropWhile Char.isDigit) := by
  unfold scanWhole
  split
  · rename_i rest
    exact (h rest rfl).elim
  · rfl

theorem scanWhole_digits (hdigits : IsDigits digits)
    (hzero : digits.head? = some '0' → digits = ['0']) (hrest : NoDigit rest) :
    scanWhole (digits ++ rest) = some (digits, rest) := by
  by_cases hhead : digits.head? = some '0'
  · rw [hzero hhead]
    rfl
  · rcases takeWhile_digits hdigits.2 hrest with ⟨htake, hdrop⟩
    rw [scanWhole_of_ne, htake, hdrop, hdigits.not_isEmpty, if_neg Bool.false_ne_true]
    -- A text that starts with digits starts with the first of them.
    intro tail htext
    cases digits with
    | nil => exact hdigits.1 rfl
    | cons c digits => exact hhead (congrArg some (List.cons.inj htext).1)

/-- The number at the head of a text whose sign has been taken off. -/
def scanUnsigned (negative : Bool) (text : List Char) : Option (NumberLiteral × List Char) := do
  let (whole, text) ← scanWhole text
  let (fraction, text) ← scanFraction text
  let (exponent, text) ← scanExponent text
  return (⟨negative, whole, fraction, exponent⟩, text)

/-- The sign of a number and the text behind it. -/
def takeSign (text : List Char) : Bool × List Char :=
  match text with
  | '-' :: rest => (true, rest)
  | _ => (false, text)

theorem scanNumber_eq (text : List Char) :
    scanNumber text = scanUnsigned (takeSign text).1 (takeSign text).2 := by
  unfold scanNumber scanUnsigned
  split
  rename_i negative text' hsign
  have hsign' : takeSign text = (negative, text') := hsign
  rw [hsign']
  split
  · rfl
  · rename_i hzero
    dsimp only
    rw [scanWhole_of_ne hzero]
    split
    · rfl
    · rfl

theorem takeSign_digit {c : Char} (hc : c.isDigit = true) (text : List Char) :
    takeSign (c :: text) = (false, c :: text) := by
  unfold takeSign
  split
  · -- A digit is no sign.
    rename_i rest htext
    rw [(List.cons.inj htext).1] at hc
    cases hc
  · rfl

theorem scanUnsigned_render {n : NumberLiteral} (hn : n.Spelled) (hrest : EndsNumber rest) :
    scanUnsigned n.negative
      (n.whole ++ (renderFraction n.fraction ++ (renderExponent n.exponent ++ rest))) =
        some (n, rest) := by
  have hpoint : (renderExponent n.exponent ++ rest).head? ≠ some '.' := by
    cases n.exponent with
    | none => exact fun h => (hrest '.' h).2.1 rfl
    | some e => exact fun h => by cases h
  have hexponent := noDigit_renderExponent n.exponent hrest
  rw [scanUnsigned, scanWhole_digits hn.whole hn.no_leading_zero (noDigit_renderFraction hexponent)]
  simp only [Option.bind_eq_bind, Option.bind_some,
    scanFraction_render hn.fraction hexponent hpoint, scanExponent_render hn.exponent hrest]
  rfl

/-- A number spelled by the rules is read back, and what stands behind it is left. -/
theorem scanNumber_render {n : NumberLiteral} (hn : n.Spelled) (hrest : EndsNumber rest) :
    scanNumber (n.render ++ rest) = some (n, rest) := by
  have hscan := scanUnsigned_render hn hrest
  rw [n.render_eq, List.append_assoc, List.append_assoc, List.append_assoc]
  cases hsign : n.negative with
  | true =>
      rw [hsign] at hscan
      rw [if_pos rfl, scanNumber_eq]
      exact hscan
  | false =>
      rw [hsign] at hscan
      rw [if_neg Bool.false_ne_true, List.nil_append]
      cases hwhole : n.whole with
      | nil => exact absurd hwhole hn.whole.1
      | cons c digits =>
          rw [hwhole] at hscan
          rw [List.cons_append] at hscan ⊢
          have hc : c.isDigit = true := hn.whole.2 c (by rw [hwhole]; exact List.mem_cons_self)
          rw [scanNumber_eq, takeSign_digit hc, hscan]

/-- The text of a spelled number starts with a digit or a minus sign. -/
theorem NumberLiteral.Spelled.exists_head {n : NumberLiteral} (hn : n.Spelled) :
    ∃ c tail, n.render = c :: tail ∧ (c.isDigit = true ∨ c = '-') := by
  rw [n.render_eq]
  cases n.negative with
  | true => exact ⟨'-', _, rfl, Or.inr rfl⟩
  | false =>
      cases hwhole : n.whole with
      | nil => exact absurd hwhole hn.whole.1
      | cons c digits =>
          exact ⟨c, _, rfl, Or.inl (hn.whole.2 c (by rw [hwhole]; exact List.mem_cons_self))⟩

/-- The number that digits stand for, by the library's rule. -/
theorem digitsValue_eq (digits : List Char) :
    digitsValue digits = Nat.ofDigitChars 10 digits 0 := by
  rw [digitsValue, Nat.ofDigitChars]
  congr 1
  funext n c
  rw [Nat.mul_comm]
  rfl

theorem isDigits_toDigits (n : Nat) : IsDigits (Nat.toDigits 10 n) :=
  ⟨Nat.toDigits_ne_nil, fun _ h => Nat.isDigit_of_mem_toDigits (by decide) (by decide) h⟩

/-- The digits of a number start with zero only if there is just that one. -/
theorem toDigits_no_leading_zero (n : Nat) :
    (Nat.toDigits 10 n).head? = some '0' → Nat.toDigits 10 n = ['0'] := by
  induction n using Nat.strongRecOn with
  | ind n ih =>
      by_cases hlt : n < 10
      · rw [Nat.toDigits_of_lt_base hlt]
        exact fun h => congrArg (fun c => [c]) (Option.some.inj h)
      · rw [Nat.toDigits_of_base_le (by decide) (Nat.le_of_not_lt hlt)]
        intro hhead
        -- The digits in front are those of a tenth, which is not zero.
        rw [List.head?_append_of_ne_nil _ Nat.toDigits_ne_nil] at hhead
        have hzero := congrArg digitsValue (ih (n / 10) (by omega) hhead)
        rw [digitsValue_eq, Nat.ofDigitChars_toDigits (by decide) (by decide)] at hzero
        have hnil : digitsValue ['0'] = 0 := rfl
        omega

theorem NumberLiteral.spelled_ofNat (n : Nat) : (ofNat n).Spelled where
  whole := isDigits_toDigits n
  no_leading_zero := toDigits_no_leading_zero n
  fraction := fun _ h => by cases h
  exponent := fun _ h => by cases h

/-- A written word is read as that word. -/
theorem NumberLiteral.word?_ofWord (w : UInt64) : (ofWord w).word? = some w := by
  have hvalue : digitsValue (Nat.toDigits 10 w.toNat) = w.toNat := by
    rw [digitsValue_eq, Nat.ofDigitChars_toDigits (by decide) (by decide)]
  rw [word?]
  simp only [ofWord, ofNat, hvalue, if_pos w.toNat_lt_size]
  exact congrArg some UInt64.ofNat_toNat

end Json

end TraceCommit
