import TraceCommit.Timing

/-!
# Runs That Return

A timed run reads a clock and takes notes, but what it returns does not depend
on either. `Timed.Returns` says so of a run, and a run made of phases returns
what its phases return. What follows a phase goes by that alone.

## Main definitions

* `Stopwatch.Faithful`: Carrying out work gives its result and does no more.
* `Timed.Returns`: The run succeeds with a value, whatever the clock says.
* `Timed.Ends`: The run ends with a value or a failure, whatever the clock says.

## Theorems

* `Stopwatch.still_faithful`: The stopwatch that stands still is.
* `Timed.Returns.bind`: One run after another.
* `Timed.Ends.bind`: The same for runs that may fail.
* `Timed.returns_phase`, `Timed.returns_phaseOrFail`, `Timed.ends_phaseOrFail`:
  Single phases.
* `Timed.phaseOrFail_bind_congr`: What follows a phase sees only its results.
-/

namespace TraceCommit

variable {m : Type → Type} [Monad m] {ε α β : Type}

/-- Carrying out work gives its result and does no more than that. -/
def Stopwatch.Faithful (w : Stopwatch m) : Prop :=
  ∀ (α : Type) (work : Unit → α), w.carryOut work = pure (work ())

theorem Stopwatch.still_faithful : Stopwatch.still.Faithful := fun _ _ => rfl

namespace Timed

/-- The run succeeds with the value. Only the notes that it leaves depend on the
    clock. -/
def Returns (run : Timed m α) (a : α) : Prop :=
  ∃ notes : Array PhaseTiming → m (Array PhaseTiming), ∀ before,
    (run.run before).run = (fun after => .ok (a, after)) <$> notes before

/-- The run ends with the value or the failure. What the clock says has no part in
    which it is. -/
def Ends (run : Timed m α) (result : Except Failure α) : Prop :=
  ∃ notes : Array PhaseTiming → m (Array PhaseTiming), ∀ before,
    (run.run before).run = (fun after => result.map (·, after)) <$> notes before

theorem ends_ok_iff {run : Timed m α} {a : α} : Ends run (.ok a) ↔ Returns run a := Iff.rfl

/-- Without a clock a run ends in one way. -/
theorem Ends.unique {run : Timed Id α} {result result' : Except Failure α} (h : Ends run result)
    (h' : Ends run result') : result = result' := by
  rcases h with ⟨notes, hrun⟩
  rcases h' with ⟨notes', hrun'⟩
  have hsame : result.map (·, notes #[]) = result'.map (·, notes' #[]) :=
    (hrun #[]).symm.trans (hrun' #[])
  cases result with
  | error failure =>
      cases result' with
      | error failure' =>
          cases hsame
          rfl
      | ok a' => cases hsame
  | ok a =>
      cases result' with
      | error failure' => cases hsame
      | ok a' => rw [(Prod.mk.inj (Except.ok.inj hsame)).1]

variable [LawfulMonad m]

/-- What follows a run that returns decides how the whole ends. -/
theorem Returns.bind_ends {run : Timed m α} {next : α → Timed m β} {a : α}
    {result : Except Failure β} (h : Returns run a) (hnext : Ends (next a) result) :
    Ends (run >>= next) result := by
  rcases h with ⟨notes, hrun⟩
  rcases hnext with ⟨notes', hrun'⟩
  refine ⟨fun before => notes before >>= notes', fun before => ?_⟩
  -- The second run takes up the notes that the first one left.
  rw [StateT.run_bind, ExceptT.run_bind, hrun, bind_map_left, map_bind]
  exact bind_congr (fun after => hrun' after)

/-- A run that returns is followed by the next one. -/
theorem Returns.bind {run : Timed m α} {next : α → Timed m β} {a : α} {b : β}
    (h : Returns run a) (hnext : Returns (next a) b) : Returns (run >>= next) b :=
  h.bind_ends (ends_ok_iff.mpr hnext)

/-- Nothing follows a run that fails. -/
theorem Ends.bind_of_error {run : Timed m α} {failure : Failure} (h : Ends run (.error failure))
    (next : α → Timed m β) : Ends (run >>= next) (.error failure) := by
  rcases h with ⟨notes, hrun⟩
  refine ⟨notes, fun before => ?_⟩
  rw [StateT.run_bind, ExceptT.run_bind, hrun, bind_map_left, map_eq_pure_bind]
  rfl

/-- Runs that follow each other end as their results taken together. -/
theorem Ends.bind {run : Timed m α} {next : α → Timed m β} {result : Except Failure α}
    {result' : α → Except Failure β} (h : Ends run result)
    (hnext : ∀ a, Ends (next a) (result' a)) : Ends (run >>= next) (result >>= result') := by
  cases result with
  | error failure => exact h.bind_of_error next
  | ok a => exact (ends_ok_iff.mp h).bind_ends (hnext a)

theorem returns_lift {action : ExceptT Failure m α} {a : α} (h : action = pure a) :
    Returns (liftM action : Timed m α) a := by
  refine ⟨fun before => pure before, fun before => ?_⟩
  show (action >>= fun a => pure (a, before)).run = _
  rw [h, pure_bind, map_pure]
  rfl

/-- A phase returns what its work gives. -/
theorem returns_phase {w : Stopwatch m} (hw : w.Faithful) (phase : Phase) (work : Unit → α) :
    Returns (w.phase phase work) (work ()) := by
  refine ⟨fun before => do
    let start ← w.now
    let stop ← w.now
    pure (before.push (.of phase.name (.ofNanos (stop - start)))), fun before => ?_⟩
  unfold Stopwatch.phase
  rw [hw]
  -- Between the two readings nothing happens that could be seen.
  simp only [liftM_pure, bind_pure_comp, pure_bind, StateT.run_bind, StateT.run_monadLift,
    StateT.run_map, StateT.run_modify, map_pure, Functor.map_map, bind_map_left,
    ExceptT.run_bind, ExceptT.run_liftM, ExceptT.run_map, map_bind, Except.map]

/-- A phase that may fail returns what its work gives, if it gives something. -/
theorem returns_phaseOrFail {w : Stopwatch m} (hw : w.Faithful) (phase : Phase)
    (cause : ε → Failure) {work : Unit → Except ε α} {a : α} (h : work () = .ok a) :
    Returns (w.phaseOrFail phase cause work) a := by
  have hphase := returns_phase hw phase work
  rw [h] at hphase
  have hattempt : Returns (liftM (attempt cause (.ok a) : ExceptT Failure m α) : Timed m α) a :=
    returns_lift rfl
  exact hphase.bind hattempt

/-- What follows a run that returns sees only what it returns. -/
theorem Returns.bind_congr {run : Timed m α} {next next' : α → Timed m β} {a : α}
    (h : Returns run a) (hnext : next a = next' a) : (run >>= next) = (run >>= next') := by
  rcases h with ⟨notes, hrun⟩
  apply StateT.ext
  intro before
  apply ExceptT.ext
  rw [StateT.run_bind, StateT.run_bind, ExceptT.run_bind, ExceptT.run_bind, hrun, bind_map_left,
    bind_map_left]
  simp only [hnext]

theorem run_throw (failure : Failure) (before : Array PhaseTiming) :
    ((throw failure : Timed m α).run before).run = pure (.error failure) := by
  show ((throw failure : ExceptT Failure m α) >>= fun a => pure (a, before)).run = _
  rw [ExceptT.run_bind, ExceptT.run_throw, pure_bind]

theorem throw_bind (failure : Failure) (next : α → Timed m β) :
    ((throw failure : Timed m α) >>= next) = throw failure := by
  apply StateT.ext
  intro before
  apply ExceptT.ext
  rw [StateT.run_bind, ExceptT.run_bind, run_throw, run_throw, pure_bind]

theorem ends_throw (failure : Failure) : Ends (throw failure : Timed m α) (.error failure) := by
  refine ⟨fun before => pure before, fun before => ?_⟩
  rw [run_throw, map_pure]
  rfl

/-- A phase that may fail ends as its work does. -/
theorem ends_phaseOrFail {w : Stopwatch m} (hw : w.Faithful) (phase : Phase)
    (cause : ε → Failure) (work : Unit → Except ε α) :
    Ends (w.phaseOrFail phase cause work) ((work ()).mapError cause) := by
  cases hwork : work () with
  | ok a => exact ends_ok_iff.mpr (returns_phaseOrFail hw phase cause hwork)
  | error error =>
      have hphase := returns_phase hw phase work
      rw [hwork] at hphase
      exact hphase.bind_ends (ends_throw (cause error))

/-- What follows a phase that may fail sees only what its work gives. -/
theorem phaseOrFail_bind_congr {w : Stopwatch m} (hw : w.Faithful) (phase : Phase)
    (cause : ε → Failure) {work : Unit → Except ε α} {next next' : α → Timed m β}
    (hnext : ∀ a, work () = .ok a → next a = next' a) :
    (w.phaseOrFail phase cause work >>= next) = (w.phaseOrFail phase cause work >>= next') := by
  unfold Stopwatch.phaseOrFail
  rw [bind_assoc, bind_assoc]
  apply (returns_phase hw phase work).bind_congr
  cases hwork : work () with
  | error e => exact (throw_bind (cause e) next).trans (throw_bind (cause e) next').symm
  | ok a => exact (returns_lift rfl).bind_congr (hnext a hwork)

end Timed

end TraceCommit
