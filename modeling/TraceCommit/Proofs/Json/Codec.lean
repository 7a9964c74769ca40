import TraceCommit.Json.Codec
import TraceCommit.Proofs.Json.Value
import Mathlib.Data.List.Nodup

/-!
# Lawful Codecs

A codec is lawful if what it writes is a proper value that it reads back as the
same data. Documents of lawful codecs can be replayed: a document of some data
holds that data and nothing else.

Codecs of records are put together from those of their fields, and so are their
laws. What a record adds is one fact about names: the members of an object,
with the fields left out that are not set, fill exactly the slots of the fields
they name.

## Main definitions

* `Codec.Lawful`: A codec reads back what it writes.
* `Codec.documents`: The texts that data is stored as.
* `Value.setMembers`: The members of the fields that are set.

## Theorems

* `Codec.Lawful.ofText?_documents`: Documents hold what was stored.
* `Value.record?_setMembers`: The fields of a written record.
* `Codec.Lawful.optional_eq`, `Codec.Lawful.required_eq`: A single field.
-/

namespace TraceCommit

namespace Json

variable {α : Type}

/-- A codec that reads back what it writes, which is never null and spells its
    numbers by the rules. -/
structure Codec.Lawful (codec : Codec α) : Prop where
  /-- The numbers written are spelled by the rules. -/
  spelled : ∀ a, (codec.write a).Spelled
  /-- What is written can be told from a field that is not set. -/
  ne_null : ∀ a, codec.write a ≠ .null
  /-- What is written is read back. -/
  read_write : ∀ a, codec.read? (codec.write a) = some a

/-- The texts that data is stored as: without blanks, with a line to each item
    and member, and the latter as it is printed, with its last line ended. -/
def Codec.documents (codec : Codec α) (a : α) : List String :=
  [codec.toText a, (codec.write a).pretty, (codec.write a).pretty ++ "\n"]

namespace Value

theorem spelled_text (s : String) : (text s).Spelled := by
  simp [Spelled, text, tokens, Token.Spelled]

theorem spelled_word (w : UInt64) : (word w).Spelled :=
  spelled_number_iff.mpr (NumberLiteral.spelled_ofNat w.toNat)

theorem word?_word (w : UInt64) : (word w).word? = some w := NumberLiteral.word?_ofWord w

theorem spelled_record_iff {members : List (String × Value)} :
    (record members).Spelled ↔ ∀ member ∈ members, member.2.Spelled := by
  rw [record, spelled_object_iff, List.forall_mem_map]

/-- The members of the fields that are set, under their names. -/
def setMembers (names : List String) (slots : List (Option Value)) : List (String × Value) :=
  (names.zip slots).filterMap fun (name, value) => value.map fun value => (name, value)

theorem mem_setMembers {names : List String} {slots : List (Option Value)}
    {member : String × Value} (h : member ∈ setMembers names slots) :
    some member.2 ∈ slots := by
  rcases List.mem_filterMap.mp h with ⟨⟨name, value⟩, hzip, hvalue⟩
  rcases Option.map_eq_some_iff.mp hvalue with ⟨value', rfl, rfl⟩
  exact (List.of_mem_zip hzip).2

/-- A member is put into the slot of its name, if nothing is in it yet. -/
theorem placeMember_eq (closed : Bool) {front : List String} (back : List String) {name : String}
    {slots : List (Option Value)} (hname : name ∉ front) (hslots : slots.length = front.length)
    (value : Value) (later : List (Option Value)) :
    placeMember (front ++ name :: back) closed (slots ++ none :: later) (some name, value) =
      some (slots ++ some value :: later) := by
  have hfind : (front ++ name :: back).findIdx? (· == name) = some slots.length := by
    rw [List.findIdx?_append, List.findIdx?_eq_none_iff.mpr, List.findIdx?_cons, hslots]
    · simp
    · intro other hother
      rw [beq_eq_false_iff_ne]
      exact fun hsame => hname (hsame ▸ hother)
  simp [placeMember, hfind]

/-- The members of the fields behind some others fill their slots. -/
theorem foldlM_placeMember (closed : Bool) (back : List String) :
    ∀ (front : List String) (slots later : List (Option Value)), (front ++ back).Nodup →
      slots.length = front.length → later.length = back.length →
        ((setMembers back later).map fun (name, value) => (some name, value)).foldlM
          (placeMember (front ++ back) closed) (slots ++ List.replicate back.length none) =
            some (slots ++ later) := by
  induction back with
  | nil =>
      intro front slots later _ _ hlater
      rw [List.eq_nil_of_length_eq_zero hlater]
      rfl
  | cons name back ih =>
      intro front slots later hnodup hslots hlater
      cases later with
      | nil => cases hlater
      | cons slot later =>
          have hrest := ih (front ++ [name]) (slots ++ [slot]) later
            (by rwa [List.append_assoc]) (by simp [hslots]) (Nat.succ.inj hlater)
          rw [List.append_assoc, List.append_assoc, List.append_assoc] at hrest
          cases slot with
          | none => exact hrest
          | some value =>
              have hname : name ∉ front := fun hmem =>
                List.disjoint_of_nodup_append hnodup hmem List.mem_cons_self
              have hplace := placeMember_eq closed back hname hslots value
                (List.replicate back.length none)
              have hmembers : setMembers (name :: back) (some value :: later) =
                  (name, value) :: setMembers back later := rfl
              rw [hmembers, List.map_cons, List.foldlM_cons, List.length_cons,
                List.replicate_succ, hplace]
              exact hrest

/-- The fields of a written record are those it was written from. -/
theorem record?_setMembers {names : List String} (slots : List (Option Value)) (closed : Bool)
    (hnames : names.Nodup) (hslots : slots.length = names.length) :
    (record (setMembers names slots)).record? names closed = some slots :=
  foldlM_placeMember closed names [] [] slots hnames rfl hslots

end Value

namespace Codec

theorem word_lawful : word.Lawful where
  spelled := Value.spelled_word
  ne_null := fun _ h => by cases h
  read_write := Value.word?_word

/-- Choices are told apart by their names. -/
theorem choice_lawful {choices : List α} {name : α → String}
    (h : ∀ a, Text.named? choices name (name a) = some a) : (choice choices name).Lawful where
  spelled := fun a => Value.spelled_text (name a)
  ne_null := fun _ h => by cases h
  read_write := h

theorem list_lawful {item : Codec α} (h : item.Lawful) : (list item).Lawful where
  spelled := fun items => Value.spelled_array_iff.mpr
    (List.forall_mem_map.mpr fun a _ => h.spelled a)
  ne_null := fun _ h => by cases h
  read_write := fun items => by
    change (items.map item.write).mapM item.read? = some items
    induction items with
    | nil => rfl
    | cons a items ih => rw [List.map_cons, List.mapM_cons, h.read_write, ih]; rfl

namespace Lawful

variable {codec : Codec α}

/-- Every document of some data holds that data. -/
theorem ofText?_documents (h : codec.Lawful) (a : α) :
    ∀ text ∈ codec.documents a, codec.ofText? text = some a := by
  have hpretty : ∀ blanks : String, (∀ c ∈ blanks.toList, isBlank c = true) →
      codec.ofText? ((codec.write a).pretty ++ blanks) = some a := by
    intro blanks hblanks
    rw [ofText?, Value.ofText?_pretty (h.spelled a) hblanks, Option.bind_some, h.read_write]
  intro text htext
  simp only [documents, List.mem_cons, List.not_mem_nil, or_false] at htext
  rcases htext with rfl | rfl | rfl
  · rw [ofText?, toText, Value.ofText?_compact (h.spelled a), Option.bind_some, h.read_write]
  · rw [← String.append_empty (s := (codec.write a).pretty)]
    exact hpretty "" (List.all_eq_true.mp rfl)
  · exact hpretty "\n" (List.all_eq_true.mp rfl)

/-- The value of a field, if it is set. -/
theorem spelled_of_field (h : codec.Lawful) {value : Value} {field : Option α}
    (hvalue : some value = field.map codec.write) : value.Spelled := by
  rcases Option.map_eq_some_iff.mp hvalue.symm with ⟨a, _, rfl⟩
  exact h.spelled a

/-- A field that must be there. -/
theorem required_eq (h : codec.Lawful) (a : α) :
    required codec.read? (some (codec.write a)) = some a := h.read_write a

/-- A field that may be missing. -/
theorem optional_eq (h : codec.Lawful) (o : Option α) :
    optional codec.read? (o.map codec.write) = some o := by
  cases o with
  | none => rfl
  | some a =>
      have hnull := h.ne_null a
      have hread := h.read_write a
      rw [Option.map_some]
      unfold optional
      split
      · rename_i hnone
        cases hnone
      · rename_i hwritten
        exact absurd (Option.some.inj hwritten) hnull
      · rename_i hwritten
        rw [← Option.some.inj hwritten, hread, Option.map_some]

end Lawful

end Codec

end Json

end TraceCommit
