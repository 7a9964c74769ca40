import TraceCommit.Field.Element
import TraceCommit.Proofs.Field.Residue
import TraceCommit.Proofs.Power
import Mathlib.Data.ZMod.Basic
import Mathlib.FieldTheory.Finite.Basic
import Mathlib.NumberTheory.LucasPrimality
import Mathlib.Tactic.NormNum.Prime

/-!
# The Field of Elements

Elements with their operations are the field of integers modulo `p`.

Every element is the residue of its representative, and no two elements are
the same residue. The operations on words compute those of residues, so each
ring law for elements is the law for residues read backwards.

That `p` is prime is settled by Lucas's test, whose witness is the field's
generator: its power with exponent `p - 1` is one, and its power with exponent
`(p - 1) / q` is not, for each of the six primes `q` that divide `p - 1`. These
powers are computed by the very square-and-multiply loop that elements are
raised to powers with, once that loop is known to compute powers.

## Main definitions

* `Element.toZMod`: The residue of an element.

## Theorems

* `Element.toZMod_injective`: An element is determined by its residue.
* `Element.pow_eq`: Square-and-multiply computes powers.
* `Element.orderOf_generator`: The generator has the largest possible order.
* `fieldOrder_prime`: The modulus is prime.
* `Element.inverse_eq`: What inversion gives, and when it fails.
-/

namespace TraceCommit

namespace Element

/-- The residue that an element stands for. -/
def toZMod (a : Element) : ZMod fieldOrder := (a.val.toNat : ZMod fieldOrder)

theorem toNat_val_lt (a : Element) : a.val.toNat < fieldOrder :=
  lt_modulus_iff.mp a.isCanonical

/-- Two elements with one residue are equal, both being canonical. -/
theorem toZMod_injective : Function.Injective toZMod := by
  intro a b h
  -- Equal residues of numbers below the modulus are equal numbers.
  have hmod : a.val.toNat % fieldOrder = b.val.toNat % fieldOrder :=
    (ZMod.natCast_eq_natCast_iff' _ _ _).mp h
  rw [Nat.mod_eq_of_lt a.toNat_val_lt, Nat.mod_eq_of_lt b.toNat_val_lt] at hmod
  cases a
  cases b
  congr 1
  exact UInt64.toNat_inj.mp hmod

@[simp] theorem toZMod_zero : toZMod 0 = 0 := Nat.cast_zero

@[simp] theorem toZMod_one : toZMod 1 = 1 := Nat.cast_one

@[simp] theorem toZMod_add (a b : Element) : toZMod (a + b) = toZMod a + toZMod b := by
  change ((Word.add a.val b.val).toNat : ZMod fieldOrder) = _
  rw [Word.toNat_add _ b.isCanonical, ZMod.natCast_mod, Nat.cast_add]
  rfl

@[simp] theorem toZMod_sub (a b : Element) : toZMod (a - b) = toZMod a - toZMod b := by
  change ((Word.sub a.val b.val).toNat : ZMod fieldOrder) = _
  rw [Word.toNat_sub a.isCanonical b.isCanonical, ZMod.natCast_mod, Nat.cast_add,
    Nat.cast_sub (Nat.le_of_lt b.toNat_val_lt), ZMod.natCast_self, zero_sub, ← sub_eq_add_neg]
  rfl

@[simp] theorem toZMod_neg (a : Element) : toZMod (-a) = -toZMod a := by
  change ((Word.neg a.val).toNat : ZMod fieldOrder) = _
  rw [Word.toNat_neg a.isCanonical, ZMod.natCast_mod,
    Nat.cast_sub (Nat.le_of_lt a.toNat_val_lt), ZMod.natCast_self, zero_sub]
  rfl

@[simp] theorem toZMod_mul (a b : Element) : toZMod (a * b) = toZMod a * toZMod b := by
  change ((Word.mul a.val b.val).toNat : ZMod fieldOrder) = _
  rw [Word.toNat_mul, ZMod.natCast_mod, Nat.cast_mul]
  rfl

/-- Elements form a commutative ring, as residues do. -/
instance : CommRing Element where
  add_assoc a b c := toZMod_injective (by simp only [toZMod_add, add_assoc])
  zero_add a := toZMod_injective (by simp only [toZMod_add, toZMod_zero, zero_add])
  add_zero a := toZMod_injective (by simp only [toZMod_add, toZMod_zero, add_zero])
  add_comm a b := toZMod_injective (by simp only [toZMod_add, add_comm])
  sub_eq_add_neg a b := toZMod_injective (by
    simp only [toZMod_sub, toZMod_add, toZMod_neg, sub_eq_add_neg])
  neg_add_cancel a := toZMod_injective (by
    simp only [toZMod_add, toZMod_neg, toZMod_zero, neg_add_cancel])
  mul_assoc a b c := toZMod_injective (by simp only [toZMod_mul, mul_assoc])
  mul_comm a b := toZMod_injective (by simp only [toZMod_mul, mul_comm])
  one_mul a := toZMod_injective (by simp only [toZMod_mul, toZMod_one, one_mul])
  mul_one a := toZMod_injective (by simp only [toZMod_mul, toZMod_one, mul_one])
  zero_mul a := toZMod_injective (by simp only [toZMod_mul, toZMod_zero, zero_mul])
  mul_zero a := toZMod_injective (by simp only [toZMod_mul, toZMod_zero, mul_zero])
  left_distrib a b c := toZMod_injective (by simp only [toZMod_mul, toZMod_add, mul_add])
  right_distrib a b c := toZMod_injective (by simp only [toZMod_mul, toZMod_add, add_mul])
  nsmul := nsmulRec
  zsmul := zsmulRec

/-- Taking residues, as a homomorphism of rings. -/
def residueHom : Element →+* ZMod fieldOrder where
  toFun := toZMod
  map_zero' := toZMod_zero
  map_one' := toZMod_one
  map_add' := toZMod_add
  map_mul' := toZMod_mul

/-- Square-and-multiply computes powers. -/
theorem pow_eq (a : Element) (exponent : UInt64) : a.pow exponent = a ^ exponent.toNat :=
  powerBySquaring_eq (fun _ => rfl) a exponent

/-- A power whose exponent fits a word, by square-and-multiply. -/
theorem pow_ofNat {n : Nat} (h : n < UInt64.size) (a : Element) :
    a.pow (UInt64.ofNat n) = a ^ n := by
  rw [pow_eq, UInt64.toNat_ofNat_of_lt' h]

/-- The primes that divide `p - 1`. -/
def orderFactors : List Nat := [2, 3, 5, 17, 257, 65537]

theorem mem_orderFactors {q : Nat} (hq : q.Prime) (hdvd : q ∣ fieldOrder - 1) :
    q ∈ orderFactors := by
  have hfactors : fieldOrder - 1 = 2 ^ 32 * (3 * (5 * (17 * (257 * 65537)))) := rfl
  have eq_of_dvd {r : Nat} (hr : r.Prime) (h : q ∣ r) : q = r :=
    (Nat.prime_dvd_prime_iff_eq hq hr).mp h
  -- A prime that divides a product divides one of its factors.
  rw [hfactors, hq.dvd_mul, hq.dvd_mul, hq.dvd_mul, hq.dvd_mul, hq.dvd_mul] at hdvd
  unfold orderFactors
  rcases hdvd with h | h | h | h | h | h
  · simp only [eq_of_dvd Nat.prime_two (hq.dvd_of_dvd_pow h), List.mem_cons, true_or]
  · simp only [eq_of_dvd Nat.prime_three h, List.mem_cons, true_or, or_true]
  · simp only [eq_of_dvd Nat.prime_five h, List.mem_cons, true_or, or_true]
  · simp only [eq_of_dvd (by norm_num) h, List.mem_cons, true_or, or_true]
  · simp only [eq_of_dvd (by norm_num) h, List.mem_cons, true_or, or_true]
  · simp only [eq_of_dvd (by norm_num) h, List.mem_cons, true_or, or_true]

theorem generator_pow_full : generator.pow (UInt64.ofNat (fieldOrder - 1)) = 1 := by
  decide +kernel

theorem generator_pow_part :
    ∀ q ∈ orderFactors, generator.pow (UInt64.ofNat ((fieldOrder - 1) / q)) ≠ 1 := by
  decide +kernel

/-- The generator has the largest order that an element can have. -/
theorem orderOf_generator : orderOf generator = fieldOrder - 1 := by
  -- All exponents fit a word, so the powers are those that were computed.
  have hsize (n : Nat) (h : n ≤ fieldOrder - 1) : n < UInt64.size :=
    Nat.lt_of_le_of_lt h (by decide)
  refine orderOf_eq_of_pow_and_pow_div_prime (by decide) ?_ (fun q hq hdvd => ?_)
  · rw [← pow_ofNat (hsize _ (le_refl _))]
    exact generator_pow_full
  · rw [← pow_ofNat (hsize _ (Nat.div_le_self _ q))]
    exact generator_pow_part q (mem_orderFactors hq hdvd)

end Element

/-- The modulus is prime: an element of order `p - 1` exists. -/
theorem fieldOrder_prime : fieldOrder.Prime := by
  -- Elements and residues have the same powers, so the same orders.
  have horder : orderOf (Element.toZMod Element.generator) = fieldOrder - 1 := by
    rw [← Element.orderOf_generator]
    exact orderOf_injective Element.residueHom.toMonoidHom Element.toZMod_injective _
  refine lucas_primality fieldOrder (Element.toZMod Element.generator) ?_ (fun q hq hdvd => ?_)
  · rw [← horder]
    exact pow_orderOf_eq_one _
  · refine pow_ne_one_of_lt_orderOf ?_ ?_
    · exact (Nat.div_pos (Nat.le_of_dvd (by decide) hdvd) hq.pos).ne'
    · rw [horder]
      exact Nat.div_lt_self (by decide) hq.one_lt

instance : Fact fieldOrder.Prime := ⟨fieldOrder_prime⟩

namespace Element

/-- Fermat's theorem. -/
theorem pow_fieldOrder_sub_one {a : Element} (ha : a ≠ 0) : a ^ (fieldOrder - 1) = 1 := by
  refine toZMod_injective ?_
  -- The theorem speaks of residues, so the claim is carried over to them.
  have hne : toZMod a ≠ 0 := fun h0 => ha (toZMod_injective (h0.trans toZMod_zero.symm))
  rw [toZMod_one, ← ZMod.pow_card_sub_one_eq_one hne]
  exact map_pow residueHom a _

/-- An element other than zero times its power with exponent `p - 2` is one. -/
theorem mul_pow_of_ne_zero {a : Element} (ha : a ≠ 0) : a * a.pow (modulus - 2) = 1 := by
  have hexponent : (modulus - 2).toNat + 1 = fieldOrder - 1 := by decide +kernel
  rw [pow_eq, ← pow_succ', hexponent, pow_fieldOrder_sub_one ha]

theorem isField : IsField Element where
  exists_pair_ne := ⟨0, 1, by decide⟩
  mul_comm := mul_comm
  mul_inv_cancel ha := ⟨_, mul_pow_of_ne_zero ha⟩

/-- Elements form a field. -/
noncomputable instance : Field Element := isField.toField

/-- Inversion fails on zero and nowhere else, and finds the inverse. -/
theorem inverse_eq (a : Element) :
    a.inverse = if a = 0 then .error .divisionByZero else .ok a⁻¹ := by
  unfold inverse
  by_cases h0 : a = 0
  · have hnone : a.inverse? = none := if_pos h0
    rw [if_pos h0, hnone]
  · have hsome : a.inverse? = some (a.pow (modulus - 2)) := if_neg h0
    rw [if_neg h0, hsome, eq_inv_of_mul_eq_one_right (mul_pow_of_ne_zero h0)]

end Element

end TraceCommit
