import TraceCommit.Word.Checked

/-!
# Double Words

A 128-bit number held as two 64-bit words. Products of field elements pass
through here on their way to reduction, and so do the accumulators of the
linear layer of the Poseidon permutation. The product is assembled from four
partial products of 32-bit halves, each of which fits a word.

## Main definitions

* `Wide`: A high and a low word.
* `Wide.toNat`: The number they stand for.
* `Wide.product`: The exact product of two words.
* `Wide.add`: Addition modulo `2 ^ 128`, with `Wide.addChecked` beside it.

## Theorems

* `Wide.toNat_ofNat`: Numbers below `2 ^ 128` are represented exactly.
-/

namespace TraceCommit

/-- The low 32 bits of a word. As a number it is also `2 ^ 64` modulo the
    field's modulus. -/
def lowMask : UInt64 := 0xffffffff

/-- A 128-bit number as a high and a low 64-bit word. -/
structure Wide where
  /-- The number divided by `2 ^ 64`. -/
  hi : UInt64
  /-- The number modulo `2 ^ 64`. -/
  lo : UInt64
deriving DecidableEq, Repr

namespace Wide

/-- The number a double word stands for. -/
def toNat (w : Wide) : Nat := w.hi.toNat * UInt64.size + w.lo.toNat

/-- The number of double words, `2 ^ 128`. -/
def size : Nat := UInt64.size * UInt64.size

/-- The double word of a number, modulo `2 ^ 128`. -/
def ofNat (n : Nat) : Wide := ⟨UInt64.ofNat (n / UInt64.size), UInt64.ofNat n⟩

/-- The double word of a single word. -/
@[inline] def ofWord (w : UInt64) : Wide := ⟨0, w⟩

/-- The sum modulo `2 ^ 128`: the low words carry into the high ones. -/
@[inline] def add (a b : Wide) : Wide :=
  let lo := a.lo + b.lo
  ⟨a.hi + b.hi + (if lo < a.lo then 1 else 0), lo⟩

/-- The sum, refused when it does not fit 128 bits. -/
def addChecked (a b : Wide) : Except Violation Wide :=
  if a.toNat + b.toNat < size then .ok (a.add b) else .error .overflow

/-- The exact product of two words. The middle column collects three terms
    below `2 ^ 32` each, so no partial sum overflows. -/
@[inline] def product (a b : UInt64) : Wide :=
  let aLo := a &&& lowMask
  let aHi := a >>> 32
  let bLo := b &&& lowMask
  let bHi := b >>> 32
  let ll := aLo * bLo
  let lh := aLo * bHi
  let hl := aHi * bLo
  let hh := aHi * bHi
  let mid := (ll >>> 32) + (lh &&& lowMask) + (hl &&& lowMask)
  ⟨hh + (mid >>> 32) + ((lh >>> 32) + (hl >>> 32)), (ll &&& lowMask) ||| (mid <<< 32)⟩

/-- Numbers below `2 ^ 128` are represented exactly. -/
theorem toNat_ofNat {n : Nat} (h : n < size) : (ofNat n).toNat = n := by
  have hs : UInt64.size = 18446744073709551616 := rfl
  unfold size at h
  unfold ofNat toNat
  rw [UInt64.toNat_ofNat', UInt64.toNat_ofNat']
  rw [hs] at h ⊢
  omega

end Wide

end TraceCommit
