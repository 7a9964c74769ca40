import TraceCommit.Field.Element
import Mathlib.Data.Nat.Digits.Defs

/-!
# Encodings as Bytes

The bytes of a word are its digits to the base 256, lowest first. Eight of them
are a word and a word has eight, so words and sequences of eight bytes stand for
each other. An encoding of an element is the bytes of a canonical word, and it
is the only one of that element.

## Theorems

* `Element.toNat_wordOfBytes`: The number that bytes are the digits of.
* `Element.wordOfBytes_wordBytes`, `Element.wordBytes_wordOfBytes`: Words and
  eight bytes stand for each other.
* `Element.ofWord?_eq_some_iff`: The canonical words.
* `Element.ofBytes_eq_ok_iff`, `Element.ofBytes_eq_error_iff`: What is an
  encoding, and why anything else is none.
-/

namespace TraceCommit

namespace Element

variable {bytes : List UInt8} {w : UInt64} {a : Element}

/-- A byte put below a word. -/
theorem toNat_or_shiftLeft_byte (byte : UInt8) (w : UInt64) :
    ((w <<< 8) ||| byte.toUInt64).toNat = byte.toNat + 256 * w.toNat % UInt64.size := by
  have hbyte : byte.toNat < 2 ^ 8 := byte.toNat_lt
  have hplaces : (8 : UInt64).toNat % 64 = 8 := rfl
  -- What is shifted out at the top leaves a multiple of 256.
  have hshift : (w <<< 8).toNat = (w.toNat % 2 ^ 56) <<< 8 := by
    rw [UInt64.toNat_shiftLeft, hplaces, Nat.shiftLeft_eq, Nat.shiftLeft_eq]
    omega
  rw [UInt64.toNat_or, UInt8.toNat_toUInt64, hshift, ← Nat.shiftLeft_add_eq_or_of_lt hbyte,
    Nat.shiftLeft_eq, UInt64.size]
  omega

theorem digits_lt (bytes : List UInt8) : ∀ digit ∈ bytes.map UInt8.toNat, digit < 256 :=
  List.forall_mem_map.mpr fun byte _ => byte.toNat_lt

/-- The word of up to eight bytes is the number that they are the digits of. -/
theorem toNat_wordOfBytes (h : bytes.length ≤ byteCount) :
    (wordOfBytes bytes).toNat = Nat.ofDigits 256 (bytes.map UInt8.toNat) := by
  induction bytes with
  | nil => rfl
  | cons byte rest ih =>
      have hrest : rest.length ≤ 7 := Nat.le_of_succ_le_succ h
      have hlt : Nat.ofDigits 256 (rest.map UInt8.toNat) < 256 ^ 7 := by
        refine Nat.lt_of_lt_of_le
          (Nat.ofDigits_lt_base_pow_length (by decide) (digits_lt rest)) ?_
        rw [List.length_map]
        exact Nat.pow_le_pow_right (by decide) hrest
      have hword : wordOfBytes (byte :: rest) = (wordOfBytes rest <<< 8) ||| byte.toUInt64 := rfl
      rw [hword, toNat_or_shiftLeft_byte, ih (Nat.le_of_succ_le h), List.map_cons,
        Nat.ofDigits_cons, UInt64.size]
      omega

/-- The lowest digits of a number, one by one. -/
theorem ofDigits_range (count : Nat) : ∀ n,
    Nat.ofDigits 256 ((List.range count).map fun i => n / 256 ^ i % 256) = n % 256 ^ count := by
  induction count with
  | zero =>
      intro n
      rw [pow_zero, Nat.mod_one]
      rfl
  | succ count ih =>
      intro n
      have htail : ((List.range count).map Nat.succ).map (fun i => n / 256 ^ i % 256) =
          (List.range count).map fun i => n / 256 / 256 ^ i % 256 := by
        rw [List.map_map]
        refine List.map_congr_left fun i _ => ?_
        rw [Function.comp_apply, Nat.succ_eq_add_one, pow_succ', Nat.div_div_eq_div_mul]
      rw [List.range_succ_eq_map, List.map_cons, htail, Nat.ofDigits_cons, ih, pow_zero,
        Nat.div_one, pow_succ', Nat.mod_mul]

/-- The bytes of a word are its digits. -/
theorem map_toNat_wordBytes (w : UInt64) :
    (wordBytes w).map UInt8.toNat =
      (List.range byteCount).map fun i => w.toNat / 256 ^ i % 256 := by
  rw [wordBytes, List.map_map]
  refine List.map_congr_left fun i hi => ?_
  have hlt : i < 8 := List.mem_range.mp hi
  have hplaces : (UInt64.ofNat (8 * i)).toNat % 64 = 8 * i := by
    rw [UInt64.toNat_ofNat_of_lt' (by rw [UInt64.size]; omega)]
    omega
  have hbase : 2 ^ 8 = 256 := rfl
  rw [Function.comp_apply, UInt64.toNat_toUInt8, UInt64.toNat_shiftRight, hplaces,
    Nat.shiftRight_eq_div_pow, pow_mul, hbase]

theorem length_wordBytes (w : UInt64) : (wordBytes w).length = byteCount := by
  rw [wordBytes, List.length_map, List.length_range]

/-- A word is the word of its bytes. -/
theorem wordOfBytes_wordBytes (w : UInt64) : wordOfBytes (wordBytes w) = w := by
  rw [← UInt64.toNat_inj, toNat_wordOfBytes (length_wordBytes w).le, map_toNat_wordBytes,
    ofDigits_range]
  exact Nat.mod_eq_of_lt w.toNat_lt

/-- Eight bytes are the bytes of their word. -/
theorem wordBytes_wordOfBytes (h : bytes.length = byteCount) :
    wordBytes (wordOfBytes bytes) = bytes := by
  have hlength := length_wordBytes (wordOfBytes bytes)
  have hdigits : Nat.ofDigits 256 ((wordBytes (wordOfBytes bytes)).map UInt8.toNat) =
      Nat.ofDigits 256 (bytes.map UInt8.toNat) := by
    rw [← toNat_wordOfBytes hlength.le, ← toNat_wordOfBytes h.le, wordOfBytes_wordBytes]
  refine (List.map_inj_right fun x y hxy => UInt8.toNat_inj.mp hxy).mp ?_
  exact Nat.ofDigits_inj_of_len_eq (by decide)
    (by rw [List.length_map, List.length_map, hlength, h]) (digits_lt _) (digits_lt _) hdigits

/-- A word is the representative of an element if it is canonical. -/
theorem ofWord?_eq_some_iff : ofWord? w = some a ↔ w = a.val := by
  unfold ofWord?
  split
  · rename_i hcanonical
    exact ⟨fun h => congrArg val (Option.some.inj h), fun h => by subst h; rfl⟩
  · rename_i hcanonical
    exact ⟨fun h => (by cases h), fun h => absurd a.isCanonical (h ▸ hcanonical)⟩

theorem ofWord?_eq_none_iff : ofWord? w = none ↔ modulus ≤ w := by
  unfold ofWord?
  split
  · rename_i hcanonical
    simp [hcanonical]
  · rename_i hcanonical
    simp [UInt64.not_lt.mp hcanonical]

/-- Eight bytes are read as an element if they are its encoding. -/
theorem ofBytes_eq_ok_iff (h : bytes.length = byteCount) :
    ofBytes bytes = .ok a ↔ bytes = a.toBytes := by
  have hread : ofBytes bytes = .ok a ↔ ofWord? (wordOfBytes bytes) = some a := by
    cases hword : ofWord? (wordOfBytes bytes) with
    | none => simp [ofBytes, hword]
    | some b => simp [ofBytes, hword]
  rw [hread, ofWord?_eq_some_iff]
  exact ⟨fun hword => by rw [toBytes, ← hword, wordBytes_wordOfBytes h],
    fun hbytes => by rw [hbytes, toBytes, wordOfBytes_wordBytes]⟩

/-- Bytes are refused if their word is not canonical, and for no other reason. -/
theorem ofBytes_eq_error_iff {e : FieldError} :
    ofBytes bytes = .error e ↔
      modulus ≤ wordOfBytes bytes ∧ e = .nonCanonical (wordOfBytes bytes) := by
  rw [← ofWord?_eq_none_iff]
  cases hword : ofWord? (wordOfBytes bytes) with
  | none => simp [ofBytes, hword, eq_comm]
  | some b => simp [ofBytes, hword]

end Element

end TraceCommit
