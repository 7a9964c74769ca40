import TraceCommit.Field.Stored
import TraceCommit.Proofs.Field.Bytes
import TraceCommit.Proofs.Json.Codec
import Mathlib.Data.List.Forall2

/-!
# Encodings of Elements

Bytes are read as an element exactly if they are its encoding. Documents are
read by another rule: an element stands there as a plain integer, and every
integer that fits a word is taken as it is. What is read is written back as the
same integers, but it is a list of words, and only those below the modulus are
elements.

## Main definitions

* `Value.SpellsWord`, `Value.SpellsWords`, `Value.SpellsField`: A value that
  spells words.
* `ReadsWords`: What a text is read as by a codec of words.

## Theorems

* `Value.record?_singleton_iff`: Records with a single field.
* `StoredElement.codec_lawful`, `StoredQuartic.codec_lawful`,
  `StoredElement.sequenceCodec_lawful`: What is stored is read back.
* `encodings_read_exactly`: What is read as elements, from bytes and documents.
* `noncanonical_words_read`: Words of documents are not compared with the
  modulus.
-/

namespace TraceCommit

open Json

namespace Json

/-- A spelled number is read as a word if it is a plain integer that fits. -/
theorem NumberLiteral.word?_eq_some_iff {n : NumberLiteral} {w : UInt64} :
    n.word? = some w ↔
      n.negative = false ∧ n.fraction = none ∧ n.exponent = none ∧
        digitsValue n.whole = w.toNat := by
  have hfits : (if digitsValue n.whole < UInt64.size then
      some (UInt64.ofNat (digitsValue n.whole)) else none) = some w ↔
        digitsValue n.whole = w.toNat := by
    split
    · rename_i hlt
      rw [Option.some.injEq, ← UInt64.toNat_inj, UInt64.toNat_ofNat_of_lt' hlt]
    · rename_i hlt
      exact ⟨fun h => (by cases h), fun h => absurd (h ▸ w.toNat_lt) hlt⟩
  simp [word?, hfits, and_assoc]

namespace Value

/-- A value that is a plain integer, namely the word. -/
def SpellsWord (v : Value) (s : StoredElement) : Prop :=
  ∃ digits, v = .number ⟨false, digits, none, none⟩ ∧ digitsValue digits = s.word.toNat

/-- An array of such values. -/
def SpellsWords (v : Value) (items : List StoredElement) : Prop :=
  ∃ values, v = .array values ∧ List.Forall₂ SpellsWord values items

/-- A record with the field: either the field is all there is, or it is the one
    member with its name among others. -/
def HasField (name : String) (v field : Value) : Prop :=
  v = .array [field] ∨
    ∃ members, v = .object members ∧ (∀ member ∈ members, member.1.isSome = true) ∧
      (members.filter fun member => member.1 = some name).map Prod.snd = [field]

/-- A record whose field is an array of words. -/
def SpellsField (name : String) (v : Value) (items : List StoredElement) : Prop :=
  ∃ field, v.HasField name field ∧ field.SpellsWords items

theorem word?_eq_some_iff {v : Value} {s : StoredElement} :
    v.word? = some s.word ↔ v.SpellsWord s := by
  constructor
  · intro h
    cases v with
    | number literal =>
        rcases NumberLiteral.word?_eq_some_iff.mp h with ⟨hsign, hfraction, hexponent, hvalue⟩
        rcases literal with ⟨negative, digits, fraction, exponent⟩
        cases hsign
        cases hfraction
        cases hexponent
        exact ⟨digits, rfl, hvalue⟩
    | _ => cases h
  · rintro ⟨digits, rfl, hvalue⟩
    exact NumberLiteral.word?_eq_some_iff.mpr ⟨rfl, rfl, rfl, hvalue⟩

/-- Members are passed over unless they have the name, and only one may have it. -/
theorem foldlM_placeMember_singleton (name : String) (field : Value)
    (members : List (Option String × Value)) : ∀ slot : Option Value,
      members.foldlM (placeMember [name] false) [slot] = some [some field] ↔
        (∀ member ∈ members, member.1.isSome = true) ∧
          slot.toList ++ (members.filter fun member => member.1 = some name).map Prod.snd =
            [field] := by
  induction members with
  | nil => intro slot; cases slot <;> simp
  | cons member rest ih =>
      intro slot
      rcases member with ⟨key, value⟩
      cases key with
      | none => simp [placeMember]
      | some key =>
          by_cases hname : key = name
          · subst hname
            cases slot with
            | none =>
                have hplace : placeMember [key] false [none] (some key, value) =
                    some [some value] := by
                  simp [placeMember]
                rw [List.foldlM_cons, hplace]
                simp [ih (some value)]
            | some other => simp [placeMember]
          · have hplace : placeMember [name] false [slot] (some key, value) = some [slot] := by
              simp [placeMember, Ne.symm hname]
            rw [List.foldlM_cons, hplace]
            simp [ih slot, hname]

/-- What a record with a single field is read as. -/
theorem record?_singleton_iff {name : String} {v field : Value} :
    v.record? [name] false = some [some field] ↔ v.HasField name field := by
  cases v with
  | array items =>
      cases items with
      | nil => simp [record?, HasField]
      | cons item rest =>
          cases rest with
          | nil => simp [record?, HasField]
          | cons next rest => simp [record?, HasField]
  | object members =>
      have hmembers := foldlM_placeMember_singleton name field members none
      simp [record?, HasField, hmembers]
  | _ => simp [record?, HasField]

/-- Items are read one by one. -/
theorem mapM_eq_some_iff {α : Type} {read : Value → Option α} {values : List Value} :
    ∀ {items : List α}, values.mapM read = some items ↔
      List.Forall₂ (fun value item => read value = some item) values items := by
  induction values with
  | nil =>
      intro items
      rw [List.mapM_nil, List.forall₂_nil_left_iff, Option.pure_def, Option.some.injEq, eq_comm]
  | cons value values ih =>
      intro items
      rw [List.mapM_cons, Option.bind_eq_bind, Option.bind_eq_some_iff, List.forall₂_cons_left_iff]
      constructor
      · rintro ⟨item, hitem, hrest⟩
        rcases Option.bind_eq_some_iff.mp hrest with ⟨rest, hvalues, heq⟩
        exact ⟨item, rest, hitem, ih.mp hvalues, (Option.some.inj heq).symm⟩
      · rintro ⟨item, rest, hitem, hvalues, rfl⟩
        refine ⟨item, hitem, ?_⟩
        rw [Option.bind_eq_bind, ih.mpr hvalues]
        rfl

end Value

end Json

namespace StoredElement

/-- A word stands for an element if it is canonical. -/
theorem exists_element?_iff (s : StoredElement) :
    (∃ a, s.element? = some a) ↔ s.word < modulus := by
  simp only [element?, Element.ofWord?_eq_some_iff]
  constructor
  · rintro ⟨a, ha⟩
    exact ha ▸ a.isCanonical
  · intro h
    exact ⟨⟨s.word, h⟩, rfl⟩

theorem codec_lawful : codec.Lawful where
  spelled := fun s => Value.spelled_word s.word
  ne_null := fun _ h => by cases h
  read_write := fun s => by
    change mk <$> (Value.word s.word).word? = some s
    rw [Value.word?_word]
    rfl

theorem read?_eq_some_iff (v : Value) (s : StoredElement) :
    codec.read? v = some s ↔ v.SpellsWord s := by
  rw [← Value.word?_eq_some_iff]
  change mk <$> v.word? = some s ↔ v.word? = some s.word
  cases v.word? with
  | none => simp
  | some w => rcases s with ⟨w'⟩; simp

theorem read?_list_eq_some_iff (v : Value) (items : List StoredElement) :
    (Codec.list codec).read? v = some items ↔ v.SpellsWords items := by
  cases v with
  | array values =>
      change values.mapM codec.read? = some items ↔ _
      simp [Value.mapM_eq_some_iff, read?_eq_some_iff, Value.SpellsWords]
  | _ =>
      constructor
      · intro h
        cases h
      · rintro ⟨values, h, hspells⟩
        cases h

theorem sequenceCodec_lawful (field : String) : (sequenceCodec field).Lawful where
  spelled := fun items => Value.spelled_record_iff.mpr
    (List.forall_mem_singleton.mpr ((Codec.list_lawful codec_lawful).spelled items))
  ne_null := fun _ h => by cases h
  read_write := fun items => by
    have hlist := Codec.list_lawful codec_lawful
    have hfields : ((sequenceCodec field).write items).record? [field] false =
        some [some ((Codec.list codec).write items)] :=
      Value.record?_setMembers [some ((Codec.list codec).write items)] false
        (List.nodup_singleton field) rfl
    simp only [sequenceCodec] at hfields ⊢
    rw [hfields]
    exact hlist.read_write items

theorem read?_sequence_eq_some_iff (field : String) (v : Value) (items : List StoredElement) :
    (sequenceCodec field).read? v = some items ↔ v.SpellsField field items := by
  simp only [sequenceCodec, Value.SpellsField, ← Value.record?_singleton_iff,
    ← read?_list_eq_some_iff]
  constructor
  · intro h
    rcases Option.bind_eq_some_iff.mp h with ⟨slots, hslots, hread⟩
    split at hread
    · rename_i slot
      cases slot with
      | none => cases hread
      | some value => exact ⟨value, hslots, hread⟩
    · cases hread
  · rintro ⟨value, hslots, hread⟩
    rw [hslots]
    exact hread

end StoredElement

namespace StoredQuartic

/-- The coefficients, constant coefficient first. -/
def coefficients (s : StoredQuartic) : List StoredElement := [s.c0, s.c1, s.c2, s.c3]

theorem write_eq (s : StoredQuartic) :
    codec.write s = (Codec.list StoredElement.codec).write s.coefficients := rfl

theorem codec_lawful : codec.Lawful where
  spelled := fun s => (Codec.list_lawful StoredElement.codec_lawful).spelled s.coefficients
  ne_null := fun _ h => by cases h
  read_write := fun s => by
    have hlist := (Codec.list_lawful StoredElement.codec_lawful).read_write s.coefficients
    rw [← write_eq] at hlist
    simp only [codec] at hlist ⊢
    rw [hlist]
    rfl

theorem read?_eq_some_iff (v : Value) (s : StoredQuartic) :
    codec.read? v = some s ↔ v.SpellsWords s.coefficients := by
  rw [← StoredElement.read?_list_eq_some_iff]
  simp only [codec]
  constructor
  · intro h
    rcases Option.bind_eq_some_iff.mp h with ⟨items, hitems, hread⟩
    split at hread
    · cases hread
      exact hitems
    · cases hread
  · intro h
    rw [h]
    rfl

end StoredQuartic

/-- What a text is read as by a codec of words. Every text is read as what its
    value spells, and the documents of some data as that data. Whether only
    elements are read is up to the words that are spelled. -/
structure ReadsWords {α : Type} (codec : Codec α) (words : α → List StoredElement)
    (spells : Value → α → Prop) (text : String) : Prop where
  /-- The text is read as what its value spells. -/
  reads : ∀ a, codec.ofText? text = some a ↔ ∃ v, Value.ofText? text = some v ∧ spells v a
  /-- A document is read as what is stored in it. -/
  stores : ∀ a, text ∈ codec.documents a → codec.ofText? text = some a
  /-- Nothing but elements is read if no word is spelled that is not canonical. -/
  elements_iff : (∀ a, codec.ofText? text = some a → ∀ s ∈ words a, ∃ e, s.element? = some e) ↔
    ∀ v a, Value.ofText? text = some v → spells v a → ∀ s ∈ words a, s.word < modulus

theorem readsWords {α : Type} {codec : Codec α} {spells : Value → α → Prop}
    (hcodec : codec.Lawful) (hread : ∀ v a, codec.read? v = some a ↔ spells v a)
    (words : α → List StoredElement) (text : String) : ReadsWords codec words spells text where
  reads := fun a => by simp only [Codec.ofText?, Option.bind_eq_some_iff, hread]
  stores := fun a => hcodec.ofText?_documents a text
  elements_iff := by
    simp only [Codec.ofText?, Option.bind_eq_some_iff, hread, StoredElement.exists_element?_iff]
    constructor
    · intro h v a hv ha
      exact h a ⟨v, hv, ha⟩
    · rintro h a ⟨v, hv, ha⟩
      exact h v a hv ha

/-- Eight bytes are read as an element if they are its encoding, and refused for
    nothing but a word at or above the modulus; a word is taken as an element by
    the same rule. A document is read as the words that it spells, whether they
    are canonical or not, so only elements are read from it if only canonical
    words are spelled. -/
theorem encodings_read_exactly (bytes : List UInt8) (hbytes : bytes.length = Element.byteCount)
    (w : UInt64) (text : String) :
    (∀ a : Element, Element.ofBytes bytes = .ok a ↔ bytes = a.toBytes) ∧
    (∀ e : FieldError, Element.ofBytes bytes = .error e ↔
      modulus ≤ Element.wordOfBytes bytes ∧ e = .nonCanonical (Element.wordOfBytes bytes)) ∧
    (∀ a : Element, Element.ofWord? w = some a ↔ w = a.val) ∧
    ReadsWords StoredElement.codec (fun s => [s]) Value.SpellsWord text ∧
    ReadsWords StoredQuartic.codec StoredQuartic.coefficients
      (fun v s => v.SpellsWords s.coefficients) text ∧
    ReadsWords StoredElement.coefficientsCodec id (Value.SpellsField "coeffs") text ∧
    ReadsWords StoredElement.valuesCodec id (Value.SpellsField "values") text := by
  refine ⟨fun a => Element.ofBytes_eq_ok_iff hbytes, fun e => Element.ofBytes_eq_error_iff,
    fun a => Element.ofWord?_eq_some_iff, ?_, ?_, ?_, ?_⟩
  · exact readsWords StoredElement.codec_lawful StoredElement.read?_eq_some_iff _ text
  · exact readsWords StoredQuartic.codec_lawful StoredQuartic.read?_eq_some_iff _ text
  · exact readsWords (StoredElement.sequenceCodec_lawful "coeffs")
      (StoredElement.read?_sequence_eq_some_iff "coeffs") _ text
  · exact readsWords (StoredElement.sequenceCodec_lawful "values")
      (StoredElement.read?_sequence_eq_some_iff "values") _ text

/-- The greatest element, by its bytes and in a document. -/
theorem encodings_read_exactly_greatest :
    [0, 0, 0, 0, 255, 255, 255, 255].length = Element.byteCount ∧
      Element.ofBytes [0, 0, 0, 0, 255, 255, 255, 255] = .ok .negOne ∧
      StoredElement.codec.ofText? "18446744069414584320" = some (.ofElement .negOne) := by
  have h := encodings_read_exactly [0, 0, 0, 0, 255, 255, 255, 255] rfl Element.negOne.val
    "18446744069414584320"
  exact ⟨rfl, (h.1 .negOne).mpr (by decide),
    h.2.2.2.1.stores (.ofElement .negOne) (by decide +kernel)⟩

/-- The modulus itself is read from documents of all kinds, though it stands for
    no element. -/
theorem noncanonical_words_read :
    StoredElement.codec.ofText? "18446744069414584321" = some ⟨modulus⟩ ∧
      StoredQuartic.codec.ofText? "[0,0,0,18446744069414584321]" =
        some ⟨⟨0⟩, ⟨0⟩, ⟨0⟩, ⟨modulus⟩⟩ ∧
      StoredElement.coefficientsCodec.ofText? "\x7b\"coeffs\":[18446744069414584321]\x7d" =
        some [⟨modulus⟩] ∧
      StoredElement.valuesCodec.ofText? "\x7b\"values\":[18446744069414584321]\x7d" =
        some [⟨modulus⟩] ∧
      (StoredElement.mk modulus).element? = none := by
  decide +kernel

end TraceCommit
