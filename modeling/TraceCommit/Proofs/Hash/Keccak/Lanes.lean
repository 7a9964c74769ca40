import TraceCommit.Hash.Keccak.Permutation

/-!
# What a Round of Keccak-f Does to Lanes

The layers of a round as equations of lanes, addressed by column and row, and of
the bits of a lane, addressed by place. All three are counted round, so columns
and rows that leave the same remainder by five are one, and so are places that
leave the same remainder by 64.

## Main definitions

* `Keccak.bit`: A bit of a word.
* `Keccak.parity`: The parity of a column.
* `Keccak.change`: What the first layer adds to a column.

## Theorems

* `Keccak.bit_rotateLeft`: Rotation moves bits up.
* `Keccak.lane_theta`: A lane gets the parities of two columns.
* `Keccak.parity_theta`: So does the parity of a column.
* `Keccak.lane_rhoPi`: A lane comes rotated from another place.
* `Keccak.lane_chi`: A lane is combined with the two after it.
-/

namespace TraceCommit

namespace Keccak

/-- Bit `j` of a word, with the places counted round. -/
def bit (w : UInt64) (j : Nat) : Bool := w.toBitVec.getLsbD (j % 64)

theorem eq_of_bit_eq {v w : UInt64} (h : ∀ j, bit v j = bit w j) : v = w := by
  refine UInt64.eq_of_toBitVec_eq (BitVec.eq_of_getLsbD_eq fun j hj => ?_)
  simpa only [bit, Nat.mod_eq_of_lt hj] using h j

theorem bit_add_width (w : UInt64) (j : Nat) : bit w (j + 64) = bit w j := by
  rw [bit, Nat.add_mod_right]
  rfl

@[simp] theorem bit_xor (v w : UInt64) (j : Nat) : bit (v ^^^ w) j = (bit v j ^^ bit w j) :=
  BitVec.getLsbD_xor

@[simp] theorem bit_and (v w : UInt64) (j : Nat) : bit (v &&& w) j = (bit v j && bit w j) :=
  BitVec.getLsbD_and

@[simp] theorem bit_not (w : UInt64) (j : Nat) : bit (~~~w) j = !bit w j := by
  have hj : j % 64 < 64 := Nat.mod_lt j (by decide)
  rw [bit, UInt64.toBitVec_not, BitVec.getLsbD_not, decide_eq_true hj, Bool.true_and]
  rfl

/-- In a word rotated to the left each bit comes from as many places below, which
    is to say from the others up to 64 above. -/
theorem bit_rotateLeft (w : UInt64) {places : UInt64} (h : places.toNat < 64) (j : Nat) :
    bit (rotateLeft w places) j = bit w (j + (64 - places.toNat)) := by
  have hup : (places.toBitVec % 64).toNat = places.toNat := by
    rw [BitVec.toNat_umod]
    exact Nat.mod_eq_of_lt h
  have hdown : ((64 - places).toBitVec % 64).toNat = (64 - places.toNat) % 64 := by
    rw [BitVec.toNat_umod, UInt64.toNat_toBitVec, UInt64.toNat_sub_of_le]
    · rfl
    · rw [UInt64.le_iff_toNat_le]
      exact Nat.le_of_lt h
  simp only [bit, rotateLeft, UInt64.toBitVec_or, UInt64.toBitVec_shiftLeft,
    UInt64.toBitVec_shiftRight, BitVec.getLsbD_or, BitVec.shiftLeft_eq', BitVec.ushiftRight_eq',
    BitVec.getLsbD_shiftLeft, BitVec.getLsbD_ushiftRight, hup, hdown]
  have hj : j % 64 < 64 := Nat.mod_lt j (by decide)
  rcases Nat.lt_or_ge (j % 64) places.toNat with hlow | hhigh
  · have hfrom : (64 - places.toNat) % 64 + j % 64 = (j + (64 - places.toNat)) % 64 := by omega
    rw [decide_eq_true hlow, hfrom, Bool.not_true, Bool.and_false, Bool.false_and, Bool.false_or]
  · have hfrom : j % 64 - places.toNat = (j + (64 - places.toNat)) % 64 := by omega
    rw [decide_eq_true hj, decide_eq_false (Nat.not_lt.mpr hhigh), hfrom, Bool.not_false,
      Bool.true_and, Bool.true_and]
    rcases Nat.eq_zero_or_pos places.toNat with h0 | hpos
    · -- A shift down by the whole width is none, so the word is found twice.
      have hsame : (64 - places.toNat) % 64 + j % 64 = (j + (64 - places.toNat)) % 64 := by omega
      rw [hsame, Bool.or_self]
    · have hout : 64 ≤ (64 - places.toNat) % 64 + j % 64 := by omega
      rw [BitVec.getLsbD_of_ge _ _ hout, Bool.or_false]

/-- The lane in a column and a row has a place in the state, off which the two
    are read again. -/
theorem place_lt (x y : Nat) : x % 5 + 5 * (y % 5) < 25 := by omega

theorem column_place (x y : Nat) : (x % 5 + 5 * (y % 5)) % 5 = x % 5 := by omega

theorem row_place (x y : Nat) : (x % 5 + 5 * (y % 5)) / 5 = y % 5 := by omega

theorem lane_ofFn (f : Fin 25 → UInt64) (x y : Nat) :
    lane (Vector.ofFn f) x y = f ⟨x % 5 + 5 * (y % 5), place_lt x y⟩ :=
  Vector.getElem_ofFn _

variable (s : State)

theorem lane_congr {x x' y y' : Nat} (hx : x % 5 = x' % 5) (hy : y % 5 = y' % 5) :
    lane s x y = lane s x' y' := by
  unfold lane
  congr 2
  rw [hx, hy]

/-- The lanes are all there is in a state. -/
theorem eq_of_lane_eq {s t : State} (h : ∀ x y, lane s x y = lane t x y) : s = t := by
  refine Vector.ext fun i hi => ?_
  have hplace : i % 5 + 5 * (i / 5 % 5) = i := by omega
  have hlane : s.get ⟨i % 5 + 5 * (i / 5 % 5), place_lt _ _⟩ =
      t.get ⟨i % 5 + 5 * (i / 5 % 5), place_lt _ _⟩ := h i (i / 5)
  simp only [hplace] at hlane
  exact hlane

/-- The parity of a column. -/
def parity (x : Nat) : UInt64 :=
  lane s x 0 ^^^ lane s x 1 ^^^ lane s x 2 ^^^ lane s x 3 ^^^ lane s x 4

theorem parity_congr {x x' : Nat} (hx : x % 5 = x' % 5) : parity s x = parity s x' := by
  simp only [parity, lane_congr s hx rfl]

/-- What the first layer adds to the lanes of a column. -/
def change (x : Nat) : UInt64 := parity s (x + 4) ^^^ rotateLeft (parity s (x + 1)) 1

theorem change_congr {x x' : Nat} (hx : x % 5 = x' % 5) : change s x = change s x' := by
  unfold change
  rw [parity_congr s (by omega : (x + 4) % 5 = (x' + 4) % 5),
    parity_congr s (by omega : (x + 1) % 5 = (x' + 1) % 5)]

/-- A table of the five columns, read at any. -/
theorem get_columns {f : Nat → UInt64} (h : ∀ {x x'}, x % 5 = x' % 5 → f x = f x') (x : Nat) :
    (Vector.ofFn fun x : Fin 5 => f x).get (Fin.ofNat 5 x) = f x :=
  (Vector.getElem_ofFn _).trans (h (Nat.mod_mod x 5))

theorem theta_eq : theta s = Vector.ofFn fun i => s.get i ^^^ change s i.val := by
  have hchanges : (fun x : Fin 5 => change s x) = fun x : Fin 5 =>
      (Vector.ofFn fun x : Fin 5 => parity s x).get (Fin.ofNat 5 (x + 4)) ^^^
        rotateLeft ((Vector.ofFn fun x : Fin 5 => parity s x).get (Fin.ofNat 5 (x + 1))) 1 := by
    funext x
    rw [get_columns (parity_congr s), get_columns (parity_congr s), change]
  refine congrArg Vector.ofFn (funext fun i => congrArg (s.get i ^^^ ·) ?_)
  rw [← get_columns (change_congr s), hchanges]
  rfl

theorem lane_theta (x y : Nat) : lane (theta s) x y = lane s x y ^^^ change s x := by
  rw [theta_eq, lane_ofFn, change_congr s (column_place x y)]
  rfl

/-- What is added to five lanes is added to their parity, four times of the five
    having cancelled. -/
theorem parity_theta (x : Nat) : parity (theta s) x = parity s x ^^^ change s x := by
  refine eq_of_bit_eq fun j => ?_
  simp only [parity, lane_theta, bit_xor]
  generalize bit (lane s x 0) j = b0, bit (lane s x 1) j = b1, bit (lane s x 2) j = b2,
    bit (lane s x 3) j = b3, bit (lane s x 4) j = b4, bit (change s x) j = c
  revert b0 b1 b2 b3 b4 c
  decide

theorem lane_rhoPi (x y : Nat) :
    lane (rhoPi s) x y = rotateLeft (lane s (x + 3 * y) x) (lane rotations (x + 3 * y) x) := by
  have hcolumn : (x % 5 + 3 * (y % 5)) % 5 = (x + 3 * y) % 5 := by omega
  rw [rhoPi, lane_ofFn]
  simp only [column_place, row_place]
  rw [lane_congr _ hcolumn (Nat.mod_mod x 5)]
  exact Vector.getElem_zipWith _

theorem lane_chi (x y : Nat) :
    lane (chi s) x y = lane s x y ^^^ (~~~lane s (x + 1) y &&& lane s (x + 2) y) := by
  have hnext (k : Nat) : lane s (x % 5 + k) (y % 5) = lane s (x + k) y :=
    lane_congr s (Nat.mod_add_mod x 5 k) (Nat.mod_mod y 5)
  rw [chi, lane_ofFn]
  simp only [column_place, row_place, hnext]
  rfl

end Keccak

end TraceCommit
