import TraceCommit.Violation

/-!
# Access by Place

An item of a sequence, a stretch of it, and the two parts it is split into are
asked for by place, and so are two items that are to be swapped. A place that the
sequence does not have breaks the contract of the one who asks, so none of them has
anything to fall back on.

## Main definitions

* `itemAt`: The item at a place.
* `slice`: The items from one place up to another.
* `splitAt`: The items before a place, and those from it on.
* `swapItems`: The items at two places exchanged.

## Theorems

* `itemAt_eq_ok_iff`, `slice_of_le`, `splitAt_of_le`, `swapItems_of_lt`: What is found
  at places that are there.
-/

namespace TraceCommit

variable {α : Type}

/-- The item at a place. -/
def itemAt (xs : Array α) (i : Nat) : Except Violation α :=
  match xs[i]? with
  | some x => .ok x
  | none => .error .outOfRange

/-- The items from `start` up to `stop`, without the one at `stop`. -/
def slice (xs : Array α) (start stop : Nat) : Except Violation (Array α) :=
  if start ≤ stop ∧ stop ≤ xs.size then .ok (xs.extract start stop) else .error .outOfRange

/-- The items before a place, and those from it on. -/
def splitAt (xs : Array α) (place : Nat) : Except Violation (Array α × Array α) :=
  if place ≤ xs.size then .ok (xs.extract 0 place, xs.extract place) else .error .outOfRange

/-- The sequence with the items at two places exchanged. -/
def swapItems (xs : Array α) (i j : Nat) : Except Violation (Array α) :=
  if i < xs.size ∧ j < xs.size then .ok (xs.swapIfInBounds i j) else .error .outOfRange

theorem itemAt_eq_ok_iff {xs : Array α} {i : Nat} {x : α} :
    itemAt xs i = .ok x ↔ xs[i]? = some x := by
  unfold itemAt
  cases xs[i]? with
  | none => simp only [reduceCtorEq]
  | some y => rw [Except.ok.injEq, Option.some.injEq]

theorem slice_of_le {xs : Array α} {start stop : Nat} (hstart : start ≤ stop)
    (hstop : stop ≤ xs.size) : slice xs start stop = .ok (xs.extract start stop) :=
  if_pos ⟨hstart, hstop⟩

theorem splitAt_of_le {xs : Array α} {place : Nat} (hplace : place ≤ xs.size) :
    splitAt xs place = .ok (xs.extract 0 place, xs.extract place) :=
  if_pos hplace

theorem swapItems_of_lt {xs : Array α} {i j : Nat} (hi : i < xs.size) (hj : j < xs.size) :
    swapItems xs i j = .ok (xs.swapIfInBounds i j) :=
  if_pos ⟨hi, hj⟩

end TraceCommit
