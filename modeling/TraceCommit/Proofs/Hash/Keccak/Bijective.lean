import TraceCommit.Proofs.Hash.Keccak.Lanes
import TraceCommit.Proofs.Hash.Layers
import Mathlib.Data.FinEnum
import Mathlib.Logic.Function.Iterate

/-!
# Keccak-f Permutes States

Keccak-f takes different states to different ones, and reaches all of them.

The first layer is the one that does not show how it is undone. It adds to the
parity of a column the parities of two others, one of them rotated, and what it
adds to the lanes depends on the parities alone, so it is enough to recover
those. Taken twice, such an addition only doubles the distances of what it adds,
since what is met on two ways cancels. After 64 times the places have come round,
and what is left is an addition over five columns, which has a short inverse.

Rotations are undone by rotating on, a row after the third layer determines the
row before it, and the constant is added once more.

## Main definitions

* `Keccak.spread`: Adds to every bit two others at fixed distances.
* `Keccak.Wraps`: Columns and places are counted round.

## Theorems

* `Keccak.iterate_spread`: After `2 ^ k` times the distances are `2 ^ k` times as long.
* `Keccak.theta_injective`, `Keccak.rhoPi_injective`, `Keccak.chi_injective`: The
  layers of a round can be undone.
* `Keccak.permute_bijective`: The permutation is one.
-/

namespace TraceCommit

namespace Keccak

/-- Adds to every bit the one `a` columns on and the one `b` columns and `r` places on. -/
def spread (a b r : Nat) (P : Nat → Nat → Bool) : Nat → Nat → Bool :=
  fun x j => P x j ^^ (P (x + a) j ^^ P (x + b) (j + r))

/-- What is added twice cancels. -/
theorem xor_twice (p a b aa ab bb : Bool) :
    ((p ^^ (a ^^ b)) ^^ ((a ^^ (aa ^^ ab)) ^^ (b ^^ (ab ^^ bb)))) = (p ^^ (aa ^^ bb)) := by
  revert p a b aa ab bb
  decide

/-- Taken twice, the distances double. -/
theorem spread_spread (a b r : Nat) (P : Nat → Nat → Bool) :
    spread a b r (spread a b r P) = spread (a * 2) (b * 2) (r * 2) P := by
  funext x j
  have hways : x + b + a = x + a + b := Nat.add_right_comm x b a
  simp only [spread, hways, Nat.mul_two, ← Nat.add_assoc]
  exact xor_twice _ _ _ _ _ _

theorem iterate_spread (a b r k : Nat) :
    (spread a b r)^[2 ^ k] = spread (a * 2 ^ k) (b * 2 ^ k) (r * 2 ^ k) := by
  induction k with
  | zero => rw [Nat.pow_zero, Function.iterate_one, Nat.mul_one, Nat.mul_one, Nat.mul_one]
  | succ k ih =>
      funext P
      rw [Nat.pow_succ, Nat.mul_two, Function.iterate_add_apply, ih, spread_spread, ← Nat.mul_two,
        Nat.mul_assoc, Nat.mul_assoc, Nat.mul_assoc]

/-- The columns repeat after five and the places after 64. -/
structure Wraps (P : Nat → Nat → Bool) : Prop where
  column (x j : Nat) : P (x + 5) j = P x j
  place (x j : Nat) : P x (j + 64) = P x j

namespace Wraps

variable {P : Nat → Nat → Bool}

theorem column_mul (h : Wraps P) (x j n : Nat) : P (x + 5 * n) j = P x j := by
  induction n with
  | zero => rfl
  | succ n ih => rw [Nat.mul_succ, ← Nat.add_assoc, h.column, ih]

theorem place_mul (h : Wraps P) (x j n : Nat) : P x (j + 64 * n) = P x j := by
  induction n with
  | zero => rfl
  | succ n ih => rw [Nat.mul_succ, ← Nat.add_assoc, h.place, ih]

/-- After 64 times the places have come round, and only columns are added. -/
theorem iterate_spread (h : Wraps P) : (spread 4 1 63)^[64] P = spread 1 4 0 P := by
  have hlong := congrFun (Keccak.iterate_spread 4 1 63 6) P
  refine hlong.trans (funext₂ fun x j => ?_)
  have hnear : P (x + 4 * 2 ^ 6) j = P (x + 1) j := h.column_mul (x + 1) j 51
  have hfar : P (x + 1 * 2 ^ 6) (j + 63 * 2 ^ 6) = P (x + 4) j :=
    (h.place_mul (x + 64) j 63).trans (h.column_mul (x + 4) j 12)
  rw [spread, hnear, hfar]
  rfl

/-- The columns are had back by adding the other two. -/
theorem spread_columns (h : Wraps P) : spread 2 3 0 (spread 1 4 0 P) = P := by
  funext x j
  have h6 : P (x + 2 + 4) j = P (x + 1) j := h.column (x + 1) j
  have h7 : P (x + 3 + 4) j = P (x + 2) j := h.column (x + 2) j
  simp only [spread, Nat.add_zero, h6, h7]
  generalize P x j = p, P (x + 1) j = p1, P (x + 2) j = p2, P (x + 3) j = p3, P (x + 4) j = p4
  revert p p1 p2 p3 p4
  decide

/-- Nothing is lost, for 64 times lose nothing. -/
theorem eq_of_spread_eq {Q : Nat → Nat → Bool} (hP : Wraps P) (hQ : Wraps Q)
    (h : spread 4 1 63 P = spread 4 1 63 Q) : P = Q := by
  have hlong : (spread 4 1 63)^[64] P = (spread 4 1 63)^[64] Q := by
    rw [Function.iterate_succ_apply, h, ← Function.iterate_succ_apply]
  rw [hP.iterate_spread, hQ.iterate_spread] at hlong
  rw [← hP.spread_columns, hlong, hQ.spread_columns]

end Wraps

/-- The bits of the parities of a state. -/
def parityBits (s : State) (x j : Nat) : Bool := bit (parity s x) j

theorem wraps_parityBits (s : State) : Wraps (parityBits s) where
  column x j := congrArg (bit · j) (parity_congr s (Nat.add_mod_right x 5))
  place x j := bit_add_width (parity s x) j

theorem parityBits_theta (s : State) : parityBits (theta s) = spread 4 1 63 (parityBits s) := by
  funext x j
  have hone : (1 : UInt64).toNat < 64 := by decide
  rw [parityBits, parity_theta, bit_xor, change, bit_xor, bit_rotateLeft _ hone]
  rfl

/-- The parities determine what was added to the lanes, and can be recovered. -/
theorem theta_injective : Function.Injective theta := by
  intro s t h
  have hbits : parityBits s = parityBits t := by
    refine (wraps_parityBits s).eq_of_spread_eq (wraps_parityBits t) ?_
    rw [← parityBits_theta, h, parityBits_theta]
  have hparity : parity s = parity t :=
    funext fun x => eq_of_bit_eq fun j => congrFun (congrFun hbits x) j
  refine eq_of_lane_eq fun x y => ?_
  have hlane : lane (theta s) x y = lane (theta t) x y := by rw [h]
  rw [lane_theta, lane_theta, change, change, hparity] at hlane
  exact (UInt64.xor_left_inj _).mp hlane

theorem rotateLeft_injective {places : UInt64} (h : places.toNat < 64) :
    Function.Injective (rotateLeft · places) := by
  intro v w hrotated
  refine eq_of_bit_eq fun j => ?_
  -- The bit is found as many places further up, and 64 places are none.
  have hfrom : j + places.toNat + (64 - places.toNat) = j + 64 := by omega
  have hbit : bit (rotateLeft v places) (j + places.toNat) =
      bit (rotateLeft w places) (j + places.toNat) := congrArg (bit · _) hrotated
  rwa [bit_rotateLeft v h, bit_rotateLeft w h, hfrom, bit_add_width, bit_add_width] at hbit

theorem lane_rotations_lt (x y : Nat) : (lane rotations x y).toNat < 64 := by
  have hall : ∀ i : Fin 25, (rotations.get i).toNat < 64 := by decide
  exact hall _

theorem rhoPi_injective : Function.Injective rhoPi := by
  intro s t h
  refine eq_of_lane_eq fun x y => ?_
  have hlane : lane (rhoPi s) y (2 * x + 3 * y) = lane (rhoPi t) y (2 * x + 3 * y) := by rw [h]
  -- Ten rows are none and six columns are one, so this is where the lane went to.
  have hcolumn : (y + 3 * (2 * x + 3 * y)) % 5 = x % 5 := by omega
  rw [lane_rhoPi, lane_rhoPi, lane_congr s hcolumn rfl, lane_congr t hcolumn rfl] at hlane
  exact rotateLeft_injective (lane_rotations_lt _ _) hlane

/-- A row before the third layer, from the row after it. -/
theorem lane_of_chi (s : State) (x y : Nat) :
    lane s x y = lane (chi s) x y ^^^ (~~~lane (chi s) (x + 1) y &&&
      (lane (chi s) (x + 2) y ^^^ (~~~lane (chi s) (x + 3) y &&& lane (chi s) (x + 4) y))) := by
  have h5 : lane s (x + 5) y = lane s x y := lane_congr s (Nat.add_mod_right x 5) rfl
  have h6 : lane s (x + 6) y = lane s (x + 1) y := lane_congr s (Nat.add_mod_right (x + 1) 5) rfl
  refine eq_of_bit_eq fun j => ?_
  simp only [lane_chi, Nat.add_assoc, Nat.reduceAdd, h5, h6, bit_xor, bit_and, bit_not]
  generalize bit (lane s x y) j = b, bit (lane s (x + 1) y) j = b1, bit (lane s (x + 2) y) j = b2,
    bit (lane s (x + 3) y) j = b3, bit (lane s (x + 4) y) j = b4
  revert b b1 b2 b3 b4
  decide

theorem chi_injective : Function.Injective chi := by
  intro s t h
  refine eq_of_lane_eq fun x y => ?_
  rw [lane_of_chi s, h, ← lane_of_chi t]

theorem round_injective (constant : UInt64) : Function.Injective fun s => round s constant := by
  have hconstant : Function.Injective (· ^^^ constant) := fun _ _ => (UInt64.xor_left_inj _).mp
  exact (set_injective hconstant 0 (by decide)).comp
    (chi_injective.comp (rhoPi_injective.comp theta_injective))

theorem permute_bijective : Function.Bijective permute :=
  Finite.injective_iff_bijective.mp (foldl_injective round_injective roundConstants)

end Keccak

end TraceCommit
