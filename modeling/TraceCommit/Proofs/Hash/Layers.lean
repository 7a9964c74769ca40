import Mathlib.Data.Finite.Prod
import Mathlib.SetTheory.Cardinal.Finite

/-!
# Layers That Lose Nothing

Permutations of states are built from layers that can be undone: one entry of a
vector is changed, or one step after another is taken. What the layers do not
lose, the permutation does not lose, and since there are finitely many vectors
over a finite type, nothing that is lost means nothing that is missed.

## Theorems

* `set_injective`: One entry is changed.
* `foldl_injective`: One step after another.
* `card_vector`: How many vectors there are.
-/

namespace TraceCommit

variable {α β : Type} {n : Nat}

/-- To change one entry by an injective function loses nothing. -/
theorem set_injective {g : α → α} (hg : Function.Injective g) (i : Nat) (hi : i < n) :
    Function.Injective fun v : Vector α n => v.set i (g v[i]) hi := by
  intro v w h
  refine Vector.ext fun j hj => ?_
  have hentry := congrArg (fun u : Vector α n => u[j]) h
  by_cases hij : i = j
  · subst hij
    simp only [Vector.getElem_set_self] at hentry
    exact hg hentry
  · simpa only [Vector.getElem_set_ne _ _ hij] using hentry

/-- Steps behind one another lose nothing if none of them does. -/
theorem foldl_injective {step : α → β → α} (h : ∀ b, Function.Injective fun a => step a b)
    (inputs : List β) : Function.Injective fun a => inputs.foldl step a := by
  induction inputs with
  | nil => exact Function.injective_id
  | cons b rest ih => exact ih.comp (h b)

/-- A vector is a function on its places. -/
def vectorEquiv (α : Type) (n : Nat) : Vector α n ≃ (Fin n → α) where
  toFun v i := v[i]
  invFun := Vector.ofFn
  left_inv _ := Vector.ext fun _ _ => Vector.getElem_ofFn _
  right_inv _ := funext fun _ => Vector.getElem_ofFn _

instance finite_vector [Finite α] : Finite (Vector α n) := Finite.of_equiv _ (vectorEquiv α n).symm

theorem card_vector [Finite α] : Nat.card (Vector α n) = Nat.card α ^ n := by
  rw [Nat.card_congr (vectorEquiv α n), Nat.card_fun, Nat.card_fin]

end TraceCommit
