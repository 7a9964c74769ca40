import TraceCommit.Json.Value
import TraceCommit.Proofs.Json.Token

/-!
# Written Values Read Back

A value that is written, on one line or with a line to each item and member, is
read back as the same value. This goes in two steps: each text spells the
tokens of the value, and the tokens of the value are read as the value.

Both steps are inductions on values together with their lists of items and
members, and each carries what stands behind: a text that no number goes on
with in the first, and any tokens in the second.

## Main definitions

* `Value.Spelled`: A value whose numbers are spelled by the rules.

## Theorems

* `Value.parse_tokens`: The tokens of a value are read as the value.
* `Value.spells_compact`, `Value.spells_prettyAt`: What is written spells them.
* `Value.ofText?_compact`, `Value.ofText?_pretty`: What is written is read back.
-/

namespace TraceCommit

namespace Json

namespace Value

/-- A value whose numbers are spelled by the rules. -/
def Spelled (v : Value) : Prop := ∀ token ∈ v.tokens, token.Spelled

/-- No value starts like the end of an array. -/
theorem exists_first (v : Value) :
    ∃ token rest, v.tokens = token :: rest ∧ token ≠ .closeBracket := by
  cases v with
  | null => exact ⟨_, _, rfl, by decide⟩
  | bool value => exact ⟨_, _, rfl, by simp⟩
  | number literal => exact ⟨_, _, rfl, by simp⟩
  | string content => exact ⟨_, _, rfl, by simp⟩
  | array items => exact ⟨_, _, by rw [tokens], by decide⟩
  | object members => exact ⟨_, _, by rw [tokens], by decide⟩

theorem itemTokens_cons (item next : Value) (rest : List Value) :
    itemTokens (item :: next :: rest) = item.tokens ++ .comma :: itemTokens (next :: rest) := by
  simp [itemTokens]

theorem memberTokens_cons (name : Option String) (value : Value) (next : Option String × Value)
    (rest : List (Option String × Value)) : memberTokens ((name, value) :: next :: rest) =
      .string name :: .colon :: (value.tokens ++ .comma :: memberTokens (next :: rest)) := by
  simp [memberTokens]

theorem exists_firstItem (item : Value) (items : List Value) :
    ∃ token rest, itemTokens (item :: items) = token :: rest ∧ token ≠ .closeBracket := by
  rcases exists_first item with ⟨token, rest, htokens, hne⟩
  cases items with
  | nil => exact ⟨token, rest, by rw [itemTokens, htokens], hne⟩
  | cons next items =>
      exact ⟨token, _, by rw [itemTokens_cons, htokens, List.cons_append], hne⟩

/-- Every member starts with its name. -/
theorem exists_firstMember (member : Option String × Value)
    (members : List (Option String × Value)) :
    ∃ rest, memberTokens (member :: members) = .string member.1 :: rest := by
  rcases member with ⟨name, value⟩
  cases members with
  | nil => exact ⟨_, by rw [memberTokens]⟩
  | cons next members => exact ⟨_, memberTokens_cons name value next members⟩

mutual

/-- The tokens of a value are read as the value, and the tokens behind it left. -/
theorem parse_tokens : ∀ (v : Value) {fuel : Nat} (rest : List Token),
    2 * v.tokens.length ≤ fuel → parse fuel (v.tokens ++ rest) = some (v, rest)
  | .null, 0, rest, hfuel => by simp [tokens] at hfuel
  | .null, fuel + 1, rest, _ => rfl
  | .bool value, 0, rest, hfuel => by simp [tokens] at hfuel
  | .bool value, fuel + 1, rest, _ => rfl
  | .number literal, 0, rest, hfuel => by simp [tokens] at hfuel
  | .number literal, fuel + 1, rest, _ => rfl
  | .string content, 0, rest, hfuel => by simp [tokens] at hfuel
  | .string content, fuel + 1, rest, _ => rfl
  | .array items, 0, rest, hfuel => by simp [tokens] at hfuel
  | .array [], fuel + 1, rest, _ => rfl
  | .array (item :: items), fuel + 1, rest, hfuel => by
      rw [tokens, List.length_cons, List.length_append, List.length_singleton] at hfuel
      have hitems := parseItems_tokens item items rest (by omega : _ ≤ fuel)
      have hopen : ∀ tail, itemTokens (item :: items) ++ .closeBracket :: rest =
          .closeBracket :: tail → False := by
        rcases exists_firstItem item items with ⟨first, others, hfirst, hne⟩
        intro tail htail
        rw [hfirst, List.cons_append, List.cons.injEq] at htail
        exact hne htail.1
      rw [tokens, List.cons_append, List.append_assoc, List.singleton_append, parse.eq_8 _ _ hopen,
        hitems]
      rfl
  | .object members, 0, rest, hfuel => by simp [tokens] at hfuel
  | .object [], fuel + 1, rest, _ => rfl
  | .object (member :: members), fuel + 1, rest, hfuel => by
      rw [tokens, List.length_cons, List.length_append, List.length_singleton] at hfuel
      have hmembers := parseMembers_tokens member members rest (by omega : _ ≤ fuel)
      have hopen : ∀ tail, memberTokens (member :: members) ++ .closeBrace :: rest =
          .closeBrace :: tail → False := by
        rcases exists_firstMember member members with ⟨first, hfirst⟩
        intro tail htail
        rw [hfirst] at htail
        cases htail
      rw [tokens, List.cons_append, List.append_assoc, List.singleton_append,
        parse.eq_10 _ _ hopen, hmembers]
      rfl

/-- So are the items of an array, of which there is at least one. -/
theorem parseItems_tokens : ∀ (item : Value) (items : List Value) {fuel : Nat}
    (rest : List Token), 2 * (itemTokens (item :: items)).length + 1 ≤ fuel →
      parseItems fuel (itemTokens (item :: items) ++ .closeBracket :: rest) =
        some (item :: items, rest)
  | item, [], 0, rest, hfuel => by cases hfuel
  | item, [], fuel + 1, rest, hfuel => by
      rw [itemTokens] at hfuel ⊢
      rw [parseItems, parse_tokens item _ (by omega)]
  | item, next :: items, 0, rest, hfuel => by cases hfuel
  | item, next :: items, fuel + 1, rest, hfuel => by
      rw [itemTokens_cons, List.length_append, List.length_cons] at hfuel
      rw [itemTokens_cons, List.append_assoc, List.cons_append, parseItems,
        parse_tokens item _ (by omega)]
      simp only []
      rw [parseItems_tokens next items rest (by omega)]
      rfl

/-- And the members of an object, of which there is at least one. -/
theorem parseMembers_tokens : ∀ (member : Option String × Value)
    (members : List (Option String × Value)) {fuel : Nat} (rest : List Token),
    2 * (memberTokens (member :: members)).length + 1 ≤ fuel →
      parseMembers fuel (memberTokens (member :: members) ++ .closeBrace :: rest) =
        some (member :: members, rest)
  | member, members, 0, rest, hfuel => by cases hfuel
  | (name, value), [], fuel + 1, rest, hfuel => by
      rw [memberTokens, List.length_cons, List.length_cons] at hfuel
      rw [memberTokens, List.cons_append, List.cons_append, parseMembers]
      simp only []
      rw [parse_tokens value _ (by omega)]
  | (name, value), next :: members, fuel + 1, rest, hfuel => by
      rw [memberTokens_cons, List.length_cons, List.length_cons, List.length_append,
        List.length_cons] at hfuel
      rw [memberTokens_cons, List.cons_append, List.cons_append, List.append_assoc,
        List.cons_append, parseMembers]
      simp only []
      rw [parse_tokens value _ (by omega)]
      simp only []
      rw [parseMembers_tokens next members rest (by omega)]
      rfl

end

/-- The items of an array are spelled one by one. -/
theorem spelled_itemTokens_iff (items : List Value) :
    (∀ token ∈ itemTokens items, token.Spelled) ↔ ∀ item ∈ items, item.Spelled := by
  induction items with
  | nil => simp [itemTokens]
  | cons item items ih =>
      cases items with
      | nil => simp [itemTokens, Spelled]
      | cons next items =>
          rw [itemTokens_cons, List.forall_mem_append, List.forall_mem_cons, ih,
            List.forall_mem_cons]
          simp [Spelled, Token.Spelled]

/-- So are the members of an object. -/
theorem spelled_memberTokens_iff (members : List (Option String × Value)) :
    (∀ token ∈ memberTokens members, token.Spelled) ↔ ∀ member ∈ members, member.2.Spelled := by
  induction members with
  | nil => simp [memberTokens]
  | cons member members ih =>
      rcases member with ⟨name, value⟩
      cases members with
      | nil => simp [memberTokens, Spelled, Token.Spelled]
      | cons next members =>
          rw [memberTokens_cons, List.forall_mem_cons, List.forall_mem_cons,
            List.forall_mem_append, List.forall_mem_cons, ih, List.forall_mem_cons]
          simp [Spelled, Token.Spelled]

theorem spelled_array_iff {items : List Value} :
    (array items).Spelled ↔ ∀ item ∈ items, item.Spelled := by
  rw [Spelled, tokens, ← spelled_itemTokens_iff]
  simp [Token.Spelled, or_imp, forall_and]

theorem spelled_object_iff {members : List (Option String × Value)} :
    (object members).Spelled ↔ ∀ member ∈ members, member.2.Spelled := by
  rw [Spelled, tokens, ← spelled_memberTokens_iff]
  simp [Token.Spelled, or_imp, forall_and]

theorem spelled_number_iff {literal : NumberLiteral} :
    (number literal).Spelled ↔ literal.Spelled := by
  simp [Spelled, tokens, Token.Spelled]

/-- A text ends every number before it by its first character. -/
theorem endsNumber_cons {c : Char} (hc : c.isDigit = false ∧ c ≠ '.' ∧ c ≠ 'e' ∧ c ≠ 'E')
    (text : List Char) : EndsNumber (c :: text) := by
  intro d hd
  cases hd
  exact hc

theorem endsNumber_blanks {blanks : List Char} (hblanks : ∀ c ∈ blanks, isBlank c = true) :
    EndsNumber blanks := by
  cases blanks with
  | nil =>
      intro c hc
      cases hc
  | cons c blanks =>
      refine endsNumber_cons ?_ blanks
      have hc := hblanks c List.mem_cons_self
      simp only [isBlank, Bool.or_eq_true, decide_eq_true_eq] at hc
      rcases hc with ((rfl | rfl) | rfl) | rfl
      · decide
      · decide
      · decide
      · decide

mutual

/-- The tokens of a value, one behind the other, spell the value. -/
theorem spells_compact : ∀ (v : Value) {rest : List Char} {tail : List Token}, v.Spelled →
    EndsNumber rest → Spells rest tail →
      Spells (v.tokens.flatMap Token.render ++ rest) (v.tokens ++ tail)
  | .null, _, _, _, _, h => Spells.token .null trivial trivial h
  | .bool value, _, _, _, _, h => by
      simpa [tokens] using Spells.token (.bool value) trivial trivial h
  | .number literal, _, _, hv, hrest, h => by
      simpa [tokens] using Spells.token (.number literal) (spelled_number_iff.mp hv) hrest h
  | .string content, _, _, _, _, h => by
      simpa [tokens] using Spells.token (.string content) trivial trivial h
  | .array items, rest, _, hv, _, h => by
      have hclose := Spells.token .closeBracket trivial trivial h
      have hitems := spells_compactItems items (spelled_array_iff.mp hv)
        (endsNumber_cons (by decide) rest) hclose
      have hopen := Spells.token .openBracket trivial trivial hitems
      rw [tokens, List.flatMap_cons, List.flatMap_append, List.append_assoc, List.append_assoc,
        List.cons_append, List.append_assoc]
      exact hopen
  | .object members, rest, _, hv, _, h => by
      have hclose := Spells.token .closeBrace trivial trivial h
      have hmembers := spells_compactMembers members (spelled_object_iff.mp hv)
        (endsNumber_cons (by decide) rest) hclose
      have hopen := Spells.token .openBrace trivial trivial hmembers
      rw [tokens, List.flatMap_cons, List.flatMap_append, List.append_assoc, List.append_assoc,
        List.cons_append, List.append_assoc]
      exact hopen

/-- So do those of the items of an array. -/
theorem spells_compactItems : ∀ (items : List Value) {rest : List Char} {tail : List Token},
    (∀ item ∈ items, item.Spelled) → EndsNumber rest → Spells rest tail →
      Spells ((itemTokens items).flatMap Token.render ++ rest) (itemTokens items ++ tail)
  | [], _, _, _, _, h => by
      rw [itemTokens]
      exact h
  | [item], _, _, hitems, hrest, h => by
      rw [itemTokens]
      exact spells_compact item (hitems item List.mem_cons_self) hrest h
  | item :: next :: items, rest, _, hitems, hrest, h => by
      have hnext := spells_compactItems (next :: items)
        (fun other hother => hitems other (List.mem_cons_of_mem item hother)) hrest h
      have hcomma := Spells.token .comma trivial trivial hnext
      have hitem := spells_compact item (hitems item List.mem_cons_self)
        (endsNumber_cons (by decide) _) hcomma
      rw [itemTokens_cons, List.flatMap_append, List.flatMap_cons, List.append_assoc,
        List.append_assoc, List.append_assoc, List.cons_append]
      exact hitem

/-- And those of the members of an object. -/
theorem spells_compactMembers : ∀ (members : List (Option String × Value)) {rest : List Char}
    {tail : List Token}, (∀ member ∈ members, member.2.Spelled) → EndsNumber rest →
      Spells rest tail →
        Spells ((memberTokens members).flatMap Token.render ++ rest) (memberTokens members ++ tail)
  | [], _, _, _, _, h => by
      rw [memberTokens]
      exact h
  | [(name, value)], _, _, hmembers, hrest, h => by
      have hvalue := spells_compact value (hmembers (name, value) List.mem_cons_self) hrest h
      have hcolon := Spells.token .colon trivial trivial hvalue
      have hname := Spells.token (.string name) trivial trivial hcolon
      rw [memberTokens, List.flatMap_cons, List.flatMap_cons, List.append_assoc, List.append_assoc]
      exact hname
  | (name, value) :: next :: members, rest, _, hmembers, hrest, h => by
      have hnext := spells_compactMembers (next :: members)
        (fun other hother => hmembers other (List.mem_cons_of_mem _ hother)) hrest h
      have hcomma := Spells.token .comma trivial trivial hnext
      have hvalue := spells_compact value (hmembers (name, value) List.mem_cons_self)
        (endsNumber_cons (by decide) _) hcomma
      have hcolon := Spells.token .colon trivial trivial hvalue
      have hname := Spells.token (.string name) trivial trivial hcolon
      rw [memberTokens_cons, List.flatMap_cons, List.flatMap_cons, List.flatMap_append,
        List.flatMap_cons]
      simp only [List.append_assoc, List.cons_append]
      exact hname

end

/-- A line break and the blanks behind it. -/
theorem isBlank_newline (depth : Nat) : ∀ c ∈ newline depth, isBlank c = true := by
  intro c hc
  rcases List.mem_cons.mp hc with rfl | hblank
  · rfl
  · rw [List.eq_of_mem_replicate hblank]
    rfl

variable (depth : Nat)

theorem prettyAt_array (item : Value) (items : List Value) :
    prettyAt depth (array (item :: items)) =
      '[' :: (prettyItems (depth + 1) (item :: items) ++ newline depth ++ [']']) := by
  simp [prettyAt]

theorem prettyAt_object (member : Option String × Value)
    (members : List (Option String × Value)) : prettyAt depth (object (member :: members)) =
      '\x7b' :: (prettyMembers (depth + 1) (member :: members) ++ newline depth ++ ['\x7d']) := by
  simp [prettyAt]

theorem prettyItems_cons (item next : Value) (items : List Value) :
    prettyItems depth (item :: next :: items) =
      newline depth ++ prettyAt depth item ++ ',' :: prettyItems depth (next :: items) := by
  simp [prettyItems]

theorem prettyMembers_cons (name : Option String) (value : Value) (next : Option String × Value)
    (members : List (Option String × Value)) :
    prettyMembers depth ((name, value) :: next :: members) =
      newline depth ++ (Token.string name).render ++ ':' :: ' ' ::
        (prettyAt depth value ++ ',' :: prettyMembers depth (next :: members)) := by
  simp [prettyMembers]

mutual

/-- A value with a line to each item and member is spelled, too. -/
theorem spells_prettyAt : ∀ (depth : Nat) (v : Value) {rest : List Char} {tail : List Token},
    v.Spelled → EndsNumber rest → Spells rest tail →
      Spells (prettyAt depth v ++ rest) (v.tokens ++ tail)
  | depth, .null, _, _, _, _, h => by
      rw [prettyAt, tokens]
      exact Spells.token .null trivial trivial h
  | depth, .bool value, _, _, _, _, h => by
      rw [prettyAt, tokens]
      exact Spells.token (.bool value) trivial trivial h
  | depth, .number literal, _, _, hv, hrest, h => by
      rw [prettyAt, tokens]
      exact Spells.token (.number literal) (spelled_number_iff.mp hv) hrest h
  | depth, .string content, _, _, _, _, h => by
      rw [prettyAt, tokens]
      exact Spells.token (.string content) trivial trivial h
  | depth, .array [], _, _, _, _, h => by
      rw [prettyAt, tokens, itemTokens]
      exact Spells.token .openBracket trivial trivial (Spells.token .closeBracket trivial trivial h)
  | depth, .array (item :: items), rest, _, hv, _, h => by
      have hclose := Spells.blanks (isBlank_newline depth)
        (Spells.token .closeBracket trivial trivial h)
      have hitems := spells_prettyItems (depth + 1) (item :: items) (spelled_array_iff.mp hv)
        (endsNumber_cons (by decide) _) hclose
      have hopen := Spells.token .openBracket trivial trivial hitems
      rw [prettyAt_array, tokens]
      simp only [List.append_assoc, List.cons_append]
      exact hopen
  | depth, .object [], _, _, _, _, h => by
      rw [prettyAt, tokens, memberTokens]
      exact Spells.token .openBrace trivial trivial (Spells.token .closeBrace trivial trivial h)
  | depth, .object (member :: members), rest, _, hv, _, h => by
      have hclose := Spells.blanks (isBlank_newline depth)
        (Spells.token .closeBrace trivial trivial h)
      have hmembers := spells_prettyMembers (depth + 1) (member :: members)
        (spelled_object_iff.mp hv) (endsNumber_cons (by decide) _) hclose
      have hopen := Spells.token .openBrace trivial trivial hmembers
      rw [prettyAt_object, tokens]
      simp only [List.append_assoc, List.cons_append]
      exact hopen

/-- So are the items of an array. -/
theorem spells_prettyItems : ∀ (depth : Nat) (items : List Value) {rest : List Char}
    {tail : List Token}, (∀ item ∈ items, item.Spelled) → EndsNumber rest → Spells rest tail →
      Spells (prettyItems depth items ++ rest) (itemTokens items ++ tail)
  | depth, [], _, _, _, _, h => by
      rw [prettyItems, itemTokens]
      exact h
  | depth, [item], _, _, hitems, hrest, h => by
      have hitem := spells_prettyAt depth item (hitems item List.mem_cons_self) hrest h
      rw [prettyItems, itemTokens, List.append_assoc]
      exact Spells.blanks (isBlank_newline depth) hitem
  | depth, item :: next :: items, _, _, hitems, hrest, h => by
      have hnext := spells_prettyItems depth (next :: items)
        (fun other hother => hitems other (List.mem_cons_of_mem item hother)) hrest h
      have hcomma := Spells.token .comma trivial trivial hnext
      have hitem := spells_prettyAt depth item (hitems item List.mem_cons_self)
        (endsNumber_cons (by decide) _) hcomma
      have hline := Spells.blanks (isBlank_newline depth) hitem
      rw [prettyItems_cons, itemTokens_cons]
      simp only [List.append_assoc, List.cons_append]
      exact hline

/-- And the members of an object. -/
theorem spells_prettyMembers : ∀ (depth : Nat) (members : List (Option String × Value))
    {rest : List Char} {tail : List Token}, (∀ member ∈ members, member.2.Spelled) →
      EndsNumber rest → Spells rest tail →
        Spells (prettyMembers depth members ++ rest) (memberTokens members ++ tail)
  | depth, [], _, _, _, _, h => by
      rw [prettyMembers, memberTokens]
      exact h
  | depth, [(name, value)], _, _, hmembers, hrest, h => by
      have hvalue := spells_prettyAt depth value (hmembers (name, value) List.mem_cons_self) hrest h
      have hcolon := Spells.token .colon trivial trivial hvalue.space
      have hname := Spells.token (.string name) trivial trivial hcolon
      have hline := Spells.blanks (isBlank_newline depth) hname
      rw [prettyMembers, memberTokens]
      simp only [List.append_assoc, List.cons_append]
      exact hline
  | depth, (name, value) :: next :: members, _, _, hmembers, hrest, h => by
      have hnext := spells_prettyMembers depth (next :: members)
        (fun other hother => hmembers other (List.mem_cons_of_mem _ hother)) hrest h
      have hcomma := Spells.token .comma trivial trivial hnext
      have hvalue := spells_prettyAt depth value (hmembers (name, value) List.mem_cons_self)
        (endsNumber_cons (by decide) _) hcomma
      have hcolon := Spells.token .colon trivial trivial hvalue.space
      have hname := Spells.token (.string name) trivial trivial hcolon
      have hline := Spells.blanks (isBlank_newline depth) hname
      rw [prettyMembers_cons, memberTokens_cons]
      simp only [List.append_assoc, List.cons_append]
      exact hline

end

/-- A text of the tokens of a value is read as the value. -/
theorem ofText?_of_spells {v : Value} {text : String} (h : Spells text.toList v.tokens) :
    ofText? text = some v := by
  have hparse := parse_tokens v [] (Nat.le_succ (2 * v.tokens.length))
  rw [List.append_nil] at hparse
  rw [ofText?, h.scan?_eq, Option.bind_some, ofTokens?, hparse]

/-- A value written without blanks is read back. -/
theorem ofText?_compact {v : Value} (hv : v.Spelled) : ofText? v.compact = some v := by
  have h := spells_compact v hv (endsNumber_blanks (by simp)) Spells.nil
  rw [List.append_nil, List.append_nil] at h
  refine ofText?_of_spells ?_
  rw [compact, String.toList_ofList]
  exact h

/-- A value written with a line to each item and member is read back, blanks
    behind it aside. -/
theorem ofText?_pretty {v : Value} (hv : v.Spelled) {blanks : String}
    (hblanks : ∀ c ∈ blanks.toList, isBlank c = true) : ofText? (v.pretty ++ blanks) = some v := by
  have hend := Spells.blanks hblanks Spells.nil
  rw [List.append_nil] at hend
  have h := spells_prettyAt 0 v hv (endsNumber_blanks hblanks) hend
  rw [List.append_nil] at h
  refine ofText?_of_spells ?_
  rw [pretty, String.toList_append, String.toList_ofList]
  exact h

end Value

end Json

end TraceCommit
