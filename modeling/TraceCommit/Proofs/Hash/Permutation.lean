import TraceCommit.Proofs.Hash.Layers
import TraceCommit.Proofs.Hash.LinearLayer

/-!
# Poseidon Permutes States

With any constants whatever, the Poseidon permutation takes different states to
different ones, and reaches all of them.

No layer of a round loses anything. Constants are subtracted again, the linear
layer can be undone, and the S-box is a power whose exponent has no common
divisor with `p - 1`, so that another power leads back. Rounds are layers behind
one another, and the permutation is rounds behind one another. Since there are
finitely many states, nothing that is lost means nothing that is missed.

## Theorems

* `Poseidon.sbox_injective`: The seventh power can be undone.
* `Poseidon.fullRound_injective`, `Poseidon.partialRound_injective`: So can rounds.
* `poseidon_permute_bijective`: The permutation is one.
-/

namespace TraceCommit

namespace Poseidon

theorem sbox_eq (x : Element) : sbox x = x ^ 7 := by
  simp only [sbox, Element.square]
  ring

/-- The exponent that undoes the S-box: seven times it leaves one over `p - 1`. -/
def sboxInverse : Nat := 10540996611094048183

theorem pow_sboxInverse (x : Element) : (x ^ 7) ^ sboxInverse = x := by
  have hexponent : 7 * sboxInverse = 4 * (fieldOrder - 1) + 1 := by decide
  rw [← pow_mul, hexponent, pow_succ, Nat.mul_comm, pow_mul]
  by_cases hx : x = 0
  · rw [hx, mul_zero]
  · rw [Element.pow_fieldOrder_sub_one hx, one_pow, one_mul]

theorem sbox_injective : Function.Injective sbox := by
  intro x y h
  rw [sbox_eq, sbox_eq] at h
  rw [← pow_sboxInverse x, h, pow_sboxInverse]

theorem addConstants_injective (constants : State) :
    Function.Injective (addConstants constants) := by
  intro s t h
  refine Vector.ext fun i hi => ?_
  have hi' := congrArg (fun v : State => v[i]) h
  simp only [addConstants, Vector.getElem_zipWith] at hi'
  exact add_right_cancel hi'

theorem map_sbox_injective : Function.Injective fun s : State => s.map sbox := by
  intro s t h
  refine Vector.ext fun i hi => sbox_injective ?_
  have hi' := congrArg (fun v : State => v[i]) h
  simpa using hi'

theorem fullRound_injective (constants : State) :
    Function.Injective fun s => fullRound s constants :=
  mix_injective.comp (map_sbox_injective.comp (addConstants_injective constants))

theorem partialRound_injective (constants : State) :
    Function.Injective fun s => partialRound s constants :=
  mix_injective.comp ((set_injective sbox_injective 0 (by decide)).comp
    (addConstants_injective constants))

theorem permute_injective (constants : RoundConstants) :
    Function.Injective (permute constants) :=
  (foldl_injective fullRound_injective _).comp
    ((foldl_injective partialRound_injective _).comp (foldl_injective fullRound_injective _))

instance : Finite Element := Finite.of_injective _ Element.toZMod_injective

end Poseidon

/-- Whatever the constants of the rounds, different states are permuted to
    different states, and every state is what some state is permuted to. -/
theorem poseidon_permute_bijective (constants : Poseidon.RoundConstants) :
    Function.Bijective (Poseidon.permute constants) :=
  Finite.injective_iff_bijective.mp (Poseidon.permute_injective constants)

end TraceCommit
