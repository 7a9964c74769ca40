import TraceCommit.Proofs.Timing
import Mathlib.Tactic.Choose

/-!
# Runs That Do Not Fail

A run in a monad that it knows nothing about may ask for the time, or do anything
else that the monad offers, and may fail on its own account. `Yields` says that it
does not, and what is known of its result. What is known is a property and not a
value, because some of a result, such as the times in it, is up to the monad.

A loop yields what its steps preserve. Its steps may ask for something that holds
of the items of the loop only, so the rules for loops leave the items to the steps.

A run that draws from a source of words may also have no end. Then it yields
`none`, and the rest of it is not carried out.

## Main definitions

* `Yields`: The run ends with a value that has a property.

## Theorems

* `Yields.bind`: One run after another.
* `Yields.attempt_bind`, `Yields.lift_bind`, `Yields.carryOut_bind`: What follows a
  single step.
* `Yields.filterMapM`: A loop.
* `Yields.option_bind`, `Yields.option_lift_bind`, `Yields.option_foldlM`: Runs that
  may have no end.
-/

namespace TraceCommit

variable {m : Type → Type} [Monad m] {ε σ α β γ : Type}

/-- The run ends with a value that has the property. Which one it is may depend on
    what else happens in the run; that it does not fail may not. -/
def Yields (run : ExceptT Failure m α) (property : α → Prop) : Prop :=
  ∃ values : m {a // property a}, run.run = (fun a => .ok a.val) <$> values

namespace Yields

variable {p q : α → Prop} {r : β → Prop}

/-- Where nothing else happens, there is one value. -/
theorem exists_ok {run : ExceptT Failure Id α} (h : Yields run p) :
    ∃ a, run.run = .ok a ∧ p a := by
  rcases h with ⟨value, hrun⟩
  exact ⟨value.val, hrun, value.property⟩

variable [LawfulMonad m]

theorem pure {a : α} (h : p a) : Yields (Pure.pure a : ExceptT Failure m α) p := by
  refine ⟨Pure.pure ⟨a, h⟩, ?_⟩
  rw [map_pure]
  rfl

theorem mono {run : ExceptT Failure m α} (h : Yields run p) (himp : ∀ a, p a → q a) :
    Yields run q := by
  rcases h with ⟨values, hrun⟩
  refine ⟨(fun a => ⟨a.val, himp a.val a.property⟩) <$> values, ?_⟩
  rw [hrun, Functor.map_map]

/-- What follows may count on what is known of the result before. -/
theorem bind {run : ExceptT Failure m α} {next : α → ExceptT Failure m β} (h : Yields run p)
    (hnext : ∀ a, p a → Yields (next a) r) : Yields (run >>= next) r := by
  rcases h with ⟨values, hrun⟩
  choose values' hrun' using hnext
  refine ⟨values >>= fun a => values' a.val a.property, ?_⟩
  rw [ExceptT.run_bind, hrun, bind_map_left, map_bind]
  exact bind_congr (fun a => hrun' a.val a.property)

/-- An attempt at what is known to succeed goes on with the result. -/
theorem attempt_bind {cause : ε → Failure} {result : Except ε α} {next : α → ExceptT Failure m β}
    {a : α} (h : result = .ok a) (hnext : Yields (next a) r) :
    Yields (attempt cause result >>= next) r := by
  rw [h]
  show Yields (Pure.pure a >>= next) r
  rwa [pure_bind]

/-- Nothing is known of the result of an action of the monad itself. -/
theorem lift_bind {action : m α} {next : α → ExceptT Failure m β}
    (hnext : ∀ a, Yields (next a) r) : Yields (liftM action >>= next) r := by
  have hlift : Yields (liftM action : ExceptT Failure m α) fun _ => True := by
    refine ⟨(fun a => ⟨a, trivial⟩) <$> action, ?_⟩
    rw [Functor.map_map]
    rfl
  exact hlift.bind (fun a _ => hnext a)

/-- Work that is carried out faithfully gives its result. -/
theorem carryOut_bind {w : Stopwatch m} (hw : w.Faithful) {work : Unit → α}
    {next : α → ExceptT Failure m β} {a : α} (h : work () = a) (hnext : Yields (next a) r) :
    Yields (ExceptT.lift (w.carryOut work) >>= next) r := by
  have hlift : (ExceptT.lift (Pure.pure a) : ExceptT Failure m α) = Pure.pure a := by
    apply ExceptT.ext
    rw [ExceptT.run_lift, map_pure]
    rfl
  rwa [hw, h, hlift, pure_bind]

/-- A loop that keeps some results yields those that its steps select, as far as
    they are known. -/
theorem filterMapM {step : α → ExceptT Failure m (Option β)} {known : β → γ}
    {selected : α → Option γ} {items : List α}
    (hstep : ∀ a ∈ items, Yields (step a) fun found => found.map known = selected a) :
    Yields (items.filterMapM step) fun found => found.map known = items.filterMap selected := by
  induction items with
  | nil => exact pure rfl
  | cons a items ih =>
      rw [List.filterMapM_cons]
      rw [List.forall_mem_cons] at hstep
      refine bind hstep.1 (fun found hfound => ?_)
      cases found with
      | none =>
          rw [List.filterMap_cons_none hfound.symm]
          exact ih hstep.2
      | some b =>
          rw [List.filterMap_cons_some hfound.symm]
          refine bind (ih hstep.2) (fun rest hrest => pure ?_)
          rw [List.map_cons, hrest]

/-- What follows an end may count on what is known of it; without an end, nothing
    follows. -/
theorem option_bind {p : Option α → Prop} {r : Option β → Prop}
    {run : OptionT (ExceptT Failure m) α} {next : α → OptionT (ExceptT Failure m) β}
    (h : Yields run.run p) (hnone : p none → r none)
    (hnext : ∀ a, p (some a) → Yields (next a).run r) : Yields (run >>= next).run r := by
  rw [OptionT.run_bind]
  refine bind h (fun ended hended => ?_)
  cases ended with
  | none => exact pure (hnone hended)
  | some a => exact hnext a hended

/-- What does not draw has an end. -/
theorem option_lift_bind {run : ExceptT Failure m α} {next : α → OptionT (ExceptT Failure m) β}
    {r : Option β → Prop} (h : Yields (run >>= fun a => (next a).run) r) :
    Yields (OptionT.lift run >>= next).run r := by
  rwa [run_lift_bind]

/-- A loop yields what holds at its start and is preserved by each step, from the
    items that are done to one item more. A step without an end leaves out the items
    after it, so without an end what holds must not depend on these. -/
theorem option_foldlM {step : σ → α → OptionT (ExceptT Failure m) σ}
    {holds : List α → Option σ → Prop} {items : List α}
    (hnone : ∀ rest {done}, holds done none → holds (done ++ rest) none)
    (hstep : ∀ a ∈ items, ∀ done s, holds done (some s) →
      Yields (step s a).run (holds (done ++ [a]))) :
    ∀ {done s}, holds done (some s) →
      Yields (items.foldlM step s).run (holds (done ++ items)) := by
  induction items with
  | nil =>
      intro done s hs
      rw [List.append_nil]
      exact pure hs
  | cons a items ih =>
      intro done s hs
      rw [List.foldlM_cons, List.append_cons]
      rw [List.forall_mem_cons] at hstep
      exact option_bind (hstep.1 done s hs) (hnone items) (fun s' hs' => ih hstep.2 hs')

end Yields

end TraceCommit
