import TraceCommit.Proofs.Json.Number

/-!
# Texts That Spell Tokens

What a text has to look like to be read as a sequence of tokens: the texts of
the tokens one behind the other, with blanks between them or not. Both ways of
writing a value give such texts, so that they need no proofs of their own about
the reader.

A token may stand in front of any text, except that the text behind a number
must not go on with it.

## Main definitions

* `Token.Spelled`: A token that can be written.
* `Token.Ends`: A text that may stand behind a token.
* `Spells`: A text is made of the texts of tokens, and of blanks.

## Theorems

* `scanString_quote`: A quoted string reads back, whatever it contains.
* `scanToken_render`: So does a token.
* `Spells.scan?_eq`: A text that spells tokens is read as them.
-/

namespace TraceCommit

namespace Json

/-- The characters that are written as a letter behind a backslash. -/
def letterEscaped : List Char := ['"', '\\', '\x08', '\x0c', '\n', '\x0d', '\t']

/-- The piece of a string that a character is written as. A control character
    without a letter of its own is written as a code unit. -/
def pieceOf (c : Char) : Piece :=
  if c.toNat < 0x20 ∧ c ∉ letterEscaped then .unit c.toNat else .char c

/-- The three ways in which a character is written. -/
theorem escapeChar_cases (c : Char) :
    (∃ letter, letter ≠ 'u' ∧ escaped? letter = some c ∧ escapeChar c = ['\\', letter] ∧
      pieceOf c = .char c) ∨
    (c.toNat < 0x20 ∧ pieceOf c = .unit c.toNat ∧ escapeChar c =
      ['\\', 'u', '0', '0', Text.hexDigit (c.toNat / 16), Text.hexDigit (c.toNat % 16)]) ∨
    (c ≠ '"' ∧ c ≠ '\\' ∧ ¬ c.toNat < 0x20 ∧ escapeChar c = [c] ∧ pieceOf c = .char c) := by
  by_cases hletter : c ∈ letterEscaped
  · refine Or.inl ?_
    have hcases := hletter
    simp only [letterEscaped, List.mem_cons, List.not_mem_nil, or_false] at hcases
    rcases hcases with rfl | rfl | rfl | rfl | rfl | rfl | rfl
    · exact ⟨'"', by decide, rfl, rfl, rfl⟩
    · exact ⟨'\\', by decide, rfl, rfl, rfl⟩
    · exact ⟨'b', by decide, rfl, rfl, rfl⟩
    · exact ⟨'f', by decide, rfl, rfl, rfl⟩
    · exact ⟨'n', by decide, rfl, rfl, rfl⟩
    · exact ⟨'r', by decide, rfl, rfl, rfl⟩
    · exact ⟨'t', by decide, rfl, rfl, rfl⟩
  · refine Or.inr ?_
    have hnone := hletter
    simp only [letterEscaped, List.mem_cons, List.not_mem_nil, or_false, not_or] at hnone
    rcases hnone with ⟨hquote, hslash, h8, hc, hn, hd, ht⟩
    rw [escapeChar, if_neg hquote, if_neg hslash, if_neg h8, if_neg hc, if_neg hn, if_neg hd,
      if_neg ht, pieceOf]
    by_cases hcontrol : c.toNat < 0x20
    · exact Or.inl ⟨hcontrol, if_pos ⟨hcontrol, hletter⟩, if_pos hcontrol⟩
    · exact Or.inr ⟨hquote, hslash, hcontrol, if_neg hcontrol, if_neg fun h => hcontrol h.1⟩

/-- The digit of a number below sixteen is read as that number. -/
theorem hexValue?_hexDigit {n : Nat} (h : n < 16) : Text.hexValue? (Text.hexDigit n) = some n := by
  decide +revert

/-- The code unit of a control character. -/
theorem codeUnit?_control {n : Nat} (h : n < 0x20) :
    codeUnit? '0' '0' (Text.hexDigit (n / 16)) (Text.hexDigit (n % 16)) = some n := by
  have hzero : Text.hexValue? '0' = some 0 := rfl
  rw [codeUnit?, hzero, hexValue?_hexDigit (by omega), hexValue?_hexDigit (by omega)]
  exact congrArg some (by omega : ((0 * 16 + 0) * 16 + n / 16) * 16 + n % 16 = n)

/-- A character that has been written is read as its piece. -/
theorem scanPieces_escapeChar (c : Char) {text rest : List Char} {pieces : List Piece}
    (htext : scanPieces text = some (pieces, rest)) :
    scanPieces (escapeChar c ++ text) = some (pieceOf c :: pieces, rest) := by
  rcases escapeChar_cases c with
    ⟨letter, hletter, hescaped, hwritten, hpiece⟩ | ⟨hcontrol, hpiece, hwritten⟩ |
      ⟨hquote, hslash, hcontrol, hwritten, hpiece⟩
  · rw [hwritten, hpiece, List.cons_append, List.singleton_append,
      scanPieces.eq_4 _ _ (fun _ _ _ _ _ h _ => hletter h), hescaped, htext]
    rfl
  · rw [hwritten, hpiece]
    simp only [List.cons_append, List.nil_append, scanPieces, codeUnit?_control hcontrol, htext]
    rfl
  · rw [hwritten, hpiece, List.singleton_append, scanPieces.eq_5 _ _ hquote
      (fun _ _ _ _ _ h _ => hslash h) (fun _ _ h _ => hslash h), if_neg hcontrol, htext]
    rfl

theorem scanPieces_quote (s : List Char) (rest : List Char) :
    scanPieces (s.flatMap escapeChar ++ '"' :: rest) = some (s.map pieceOf, rest) := by
  induction s with
  | nil => rfl
  | cons c s ih =>
      rw [List.flatMap_cons, List.append_assoc, List.map_cons]
      exact scanPieces_escapeChar c ih

/-- The code unit of a control character joins with nothing. -/
theorem joinPieces_unit {n : Nat} (h : n < 0x20) (pieces : List Piece) :
    joinPieces (.unit n :: pieces) = (joinPieces pieces).map (Char.ofNat n :: ·) := by
  have hhigh : isHighSurrogate n = false := by
    simp only [isHighSurrogate, Bool.and_eq_false_iff, decide_eq_false_iff_not]
    omega
  have hlow : isLowSurrogate n = false := by
    simp only [isLowSurrogate, Bool.and_eq_false_iff, decide_eq_false_iff_not]
    omega
  cases pieces with
  | nil => simp [joinPieces, hhigh, hlow]
  | cons piece pieces =>
      cases piece with
      | char c => simp [joinPieces, hhigh, hlow]
      | unit low =>
          rw [joinPieces, hhigh, hlow]
          rfl

theorem joinPieces_pieceOf (s : List Char) : joinPieces (s.map pieceOf) = some s := by
  induction s with
  | nil => rfl
  | cons c s ih =>
      rw [List.map_cons, pieceOf]
      split
      · rename_i hc
        rw [joinPieces_unit hc.1, ih, Char.ofNat_toNat]
        rfl
      · rw [joinPieces, ih]
        rfl

/-- A string in quotes is read back, whatever it contains. -/
theorem scanString_quote (s : String) (rest : List Char) :
    scanString (s.toList.flatMap escapeChar ++ '"' :: rest) = some (some s, rest) := by
  rw [scanString, scanPieces_quote]
  simp [joinPieces_pieceOf]

/-- A token that can be written. -/
def Token.Spelled : Token → Prop
  | .number literal => literal.Spelled
  | _ => True

/-- A text that may stand behind a token. -/
def Token.Ends (text : List Char) : Token → Prop
  | .number _ => EndsNumber text
  | _ => True

/-- The characters that tokens other than numbers start with. -/
def tokenStarts : List Char := ['[', ']', '\x7b', '\x7d', ',', ':', '"', 'n', 't', 'f']

theorem scanToken_of_not_mem {c : Char} (hc : c ∉ tokenStarts) (text : List Char) :
    scanToken (c :: text) =
      (scanNumber (c :: text)).map fun (literal, rest) => (.number literal, rest) := by
  unfold scanToken
  split
  case h_11 => rfl
  all_goals
    rename_i h
    refine absurd ?_ hc
    rw [(List.cons.inj h).1]
    decide

/-- What a number starts with starts no other token, and is no blank. -/
theorem not_mem_of_number_start {c : Char} (hc : c.isDigit = true ∨ c = '-') :
    c ∉ tokenStarts ∧ isBlank c = false := by
  rcases hc with hdigit | rfl
  · refine ⟨fun hmem => ?_, ?_⟩
    · have hnone : ∀ c ∈ tokenStarts, (!c.isDigit) = true := List.all_eq_true.mp rfl
      have hno := hnone c hmem
      rw [hdigit] at hno
      cases hno
    · by_contra hblank
      simp only [isBlank, Bool.not_eq_false, Bool.or_eq_true, decide_eq_true_eq] at hblank
      rcases hblank with ((rfl | rfl) | rfl) | rfl
      · cases hdigit
      · cases hdigit
      · cases hdigit
      · cases hdigit
  · decide

/-- A token is read back, and what stands behind it is left. -/
theorem scanToken_render {token : Token} {text : List Char} (htoken : token.Spelled)
    (hends : token.Ends text) : scanToken (token.render ++ text) = some (token, text) := by
  cases token with
  | number literal =>
      rcases NumberLiteral.Spelled.exists_head htoken with ⟨c, tail, hrender, hc⟩
      have hscan := scanNumber_render htoken hends
      rw [hrender, List.cons_append] at hscan
      rw [Token.render, hrender, List.cons_append,
        scanToken_of_not_mem (not_mem_of_number_start hc).1, hscan]
      rfl
  | string content =>
      cases content with
      | none => rfl
      | some s =>
          have hscan := scanString_quote s text
          rw [Token.render, quote, List.cons_append, List.append_assoc, List.singleton_append,
            scanToken, hscan]
          rfl
  | bool value =>
      cases value with
      | false => rfl
      | true => rfl
  | openBracket => rfl
  | closeBracket => rfl
  | openBrace => rfl
  | closeBrace => rfl
  | comma => rfl
  | colon => rfl
  | null => rfl

/-- The text of a token starts with a character that is no blank. -/
theorem Token.Spelled.exists_head {token : Token} (htoken : token.Spelled) :
    ∃ c tail, token.render = c :: tail ∧ isBlank c = false := by
  cases token with
  | number literal =>
      rcases NumberLiteral.Spelled.exists_head htoken with ⟨c, tail, hrender, hc⟩
      exact ⟨c, tail, hrender, (not_mem_of_number_start hc).2⟩
  | string content =>
      cases content with
      | none => exact ⟨'"', _, rfl, by decide⟩
      | some s => exact ⟨'"', _, rfl, by decide⟩
  | bool value =>
      cases value with
      | false => exact ⟨'f', _, rfl, by decide⟩
      | true => exact ⟨'t', _, rfl, by decide⟩
  | openBracket => exact ⟨'[', _, rfl, by decide⟩
  | closeBracket => exact ⟨']', _, rfl, by decide⟩
  | openBrace => exact ⟨'\x7b', _, rfl, by decide⟩
  | closeBrace => exact ⟨'\x7d', _, rfl, by decide⟩
  | comma => exact ⟨',', _, rfl, by decide⟩
  | colon => exact ⟨':', _, rfl, by decide⟩
  | null => exact ⟨'n', _, rfl, by decide⟩

/-- The text is made of the texts of the tokens, in their order, and of blanks. -/
inductive Spells : List Char → List Token → Prop
  /-- The empty text spells nothing. -/
  | nil : Spells [] []
  /-- A blank may stand in front. -/
  | blank {c : Char} {text : List Char} {tokens : List Token} (hblank : isBlank c = true)
      (htext : Spells text tokens) : Spells (c :: text) tokens
  /-- A token may stand in front if the text may stand behind it. -/
  | token (token : Token) {text : List Char} {tokens : List Token} (htoken : token.Spelled)
      (hends : token.Ends text) (htext : Spells text tokens) :
      Spells (token.render ++ text) (token :: tokens)

namespace Spells

variable {text : List Char} {tokens : List Token}

theorem scanTokens_eq (h : Spells text tokens) {fuel : Nat} (hfuel : text.length ≤ fuel) :
    scanTokens fuel text = some tokens := by
  induction h generalizing fuel with
  | nil => rw [scanTokens]
  | blank hblank _ ih =>
      cases fuel with
      | zero => cases hfuel
      | succ fuel =>
          rw [scanTokens, if_pos hblank]
          exact ih (Nat.le_of_succ_le_succ hfuel)
  | @token token text tokens htoken hends _ ih =>
      rcases htoken.exists_head with ⟨c, tail, hrender, hblank⟩
      have hscan := scanToken_render htoken hends
      rw [hrender, List.cons_append] at hscan
      rw [hrender, List.cons_append] at hfuel ⊢
      cases fuel with
      | zero => cases hfuel
      | succ fuel =>
          have hlength := Nat.le_of_succ_le_succ hfuel
          rw [List.length_append] at hlength
          rw [scanTokens, if_neg (by rw [hblank]; exact Bool.false_ne_true), hscan]
          simp only [Option.bind_eq_bind, Option.bind_some, ih (by omega : text.length ≤ fuel)]
          rfl

/-- A text that spells tokens is read as them. -/
theorem scan?_eq (h : Spells text tokens) : Token.scan? text = some tokens :=
  h.scanTokens_eq (Nat.le_refl _)

theorem space (h : Spells text tokens) : Spells (' ' :: text) tokens := blank (by decide) h

/-- Any blanks may stand in front of a text. -/
theorem blanks {blanks : List Char} (hblanks : ∀ c ∈ blanks, isBlank c = true)
    (h : Spells text tokens) : Spells (blanks ++ text) tokens := by
  induction blanks with
  | nil => exact h
  | cons c blanks ih =>
      exact blank (hblanks c List.mem_cons_self)
        (ih fun d hd => hblanks d (List.mem_cons_of_mem c hd))

end Spells

end Json

end TraceCommit
