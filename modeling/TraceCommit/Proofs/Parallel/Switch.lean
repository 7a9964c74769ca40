import TraceCommit.Parallel.Switch
import Mathlib.Data.List.Induction
import Mathlib.Data.List.InsertIdx

/-!
# Guards That Overlap

The switch under a sequence of single steps, each of which takes a guard or
drops one that is alive. The steps of several threads interleave to such a
sequence, so guards may be dropped in any order.

A guard puts back what it found, and so whether the switch returns to where it
started depends on which guard goes last. What decides is the oldest guard
alive: it holds the position from before all others, and as long as it is not
dropped among others that position is not lost. Scopes that nest, where the
newest guard goes first, never lose it. Guards that overlap may.

## Main definitions

* `Switch.Event`: Taking and dropping a guard.
* `Switch.run`: A switch behind a sequence of events.
* `Switch.origin`: What the oldest guard alive puts back.
* `Switch.OldestLast`, `Switch.NewestFirst`: Orders of dropping.
* `Switch.takenAt`: The events that took the guards alive.
* `Switch.foundAt`: The position an event finds.

## Theorems

* `Switch.origin_step`, `Switch.origin_run`: The origin is kept.
* `Switch.guards_eq_found`: What each guard alive puts back.
* `Switch.restored_when_oldest_last`: Where the switch is at the end.
* `Switch.overlapping_guards_stick`: Two guards that leave it elsewhere.
-/

namespace TraceCommit

namespace Switch

/-- A single step of a process. -/
inductive Event
  /-- Sets the switch and takes a guard. -/
  | set (enabled : Bool)
  /-- Drops the guard alive with the given number, the oldest having number zero. -/
  | drop (index : Nat)
deriving DecidableEq, Repr

/-- The switch behind an event. -/
def step (s : Switch) : Event → Except Violation Switch
  | .set enabled => .ok (s.set enabled)
  | .drop index => s.drop index

/-- The switch behind a sequence of events, in which only guards are dropped that
    are alive. -/
def run (s : Switch) (events : List Event) : Except Violation Switch := events.foldlM step s

/-- What the oldest guard alive puts back, or the position if there is none. -/
def origin (s : Switch) : Bool := s.guards.headD s.on

/-- How many guards are alive behind an event. -/
def Event.aliveAfter (alive : Nat) : Event → Nat
  | .set _ => alive + 1
  | .drop _ => alive - 1

/-- With some guards alive at first, the oldest one is dropped only when no other
    is alive. -/
def OldestLast (alive : Nat) : List Event → Prop
  | [] => True
  | event :: rest => (event = .drop 0 → alive = 1) ∧ OldestLast (event.aliveAfter alive) rest

/-- With some guards alive at first, always the newest one is dropped. -/
def NewestFirst (alive : Nat) : List Event → Prop
  | [] => True
  | event :: rest =>
    (∀ index, event = .drop index → index + 1 = alive) ∧ NewestFirst (event.aliveAfter alive) rest

/-- The guards alive behind an event with the given number, each as the number of
    the event that took it. -/
def Event.takenAfter (number : Nat) (taken : List Nat) : Event → List Nat
  | .set _ => taken ++ [number]
  | .drop index => taken.eraseIdx index

/-- The guards alive behind a sequence of events, oldest first, each as the number
    of the event that took it. -/
def takenAt (events : List Event) : List Nat :=
  events.zipIdx.foldl (fun taken event => event.1.takenAfter event.2 taken) []

/-- The position that the event with the given number finds. -/
def foundAt (s : Switch) (events : List Event) (number : Nat) : Option Bool :=
  (s.run (events.take number)).toOption.map on

variable {s t : Switch} {event : Event} {events : List Event} {index : Nat}

/-- What dropping a guard does. -/
theorem drop_eq_ok_iff : s.drop index = .ok t ↔
    ∃ restore, s.guards[index]? = some restore ∧ t = ⟨restore, s.guards.eraseIdx index⟩ := by
  rw [drop]
  cases h : s.guards[index]? with
  | none => simp
  | some restore => simp [eq_comm]

/-- A first event is a step to where the events behind it start. -/
theorem run_cons_eq_ok_iff : s.run (event :: events) = .ok t ↔
    ∃ next, s.step event = .ok next ∧ next.run events = .ok t := by
  rw [run, List.foldlM_cons]
  cases s.step event with
  | error broken => simp [bind, Except.bind]
  | ok next => simp [bind, Except.bind, run]

/-- A last event is a step from where the events before it lead. -/
theorem run_append_single_eq_ok_iff : s.run (events ++ [event]) = .ok t ↔
    ∃ next, s.run events = .ok next ∧ next.step event = .ok t := by
  rw [run, List.foldlM_append, ← run]
  simp only [List.foldlM_cons, List.foldlM_nil, bind_pure]
  cases s.run events with
  | error broken => simp [bind, Except.bind]
  | ok next => simp [bind, Except.bind]

/-- A step keeps the origin unless it drops the oldest guard among others. -/
theorem origin_step (hstep : s.step event = .ok t)
    (holdest : event = .drop 0 → s.guards.length = 1) : t.origin = s.origin := by
  cases event with
  | set enabled =>
      rw [step, Except.ok.injEq] at hstep
      rw [← hstep, set, origin, origin]
      cases s.guards with
      | nil => rfl
      | cons oldest rest => rfl
  | drop index =>
      rcases drop_eq_ok_iff.mp hstep with ⟨restore, hguard, rfl⟩
      rw [origin, origin]
      cases hguards : s.guards with
      | nil =>
          rw [hguards] at hguard
          cases hguard
      | cons oldest rest =>
          rw [hguards] at hguard holdest
          cases index with
          | zero =>
              -- The oldest guard was alone, and puts the origin back.
              have hrest : rest = [] := List.eq_nil_of_length_eq_zero (by
                simpa using holdest rfl)
              rw [List.getElem?_cons_zero, Option.some.injEq] at hguard
              rw [hrest, hguard]
              rfl
          | succ index => rfl

theorem length_guards_step (hstep : s.step event = .ok t) :
    t.guards.length = event.aliveAfter s.guards.length := by
  cases event with
  | set enabled =>
      rw [step, Except.ok.injEq] at hstep
      rw [← hstep, set, List.length_append, List.length_singleton, Event.aliveAfter]
  | drop index =>
      rcases drop_eq_ok_iff.mp hstep with ⟨restore, hguard, rfl⟩
      exact List.length_eraseIdx_of_lt (List.getElem?_eq_some_iff.mp hguard).1

/-- A run keeps the origin if the oldest guard alive always goes last. -/
theorem origin_run (hrun : s.run events = .ok t) (horder : OldestLast s.guards.length events) :
    t.origin = s.origin := by
  induction events generalizing s with
  | nil =>
      cases hrun
      rfl
  | cons event rest ih =>
      rcases run_cons_eq_ok_iff.mp hrun with ⟨next, hstep, hrest⟩
      rw [OldestLast, ← length_guards_step hstep] at horder
      exact (ih hrest horder.2).trans (origin_step hstep horder.1)

theorem NewestFirst.oldestLast {alive : Nat} (h : NewestFirst alive events) :
    OldestLast alive events := by
  induction events generalizing alive with
  | nil => trivial
  | cons event rest ih => exact ⟨fun hdrop => (h.1 0 hdrop).symm, ih h.2⟩

theorem takenAt_append_single :
    takenAt (events ++ [event]) = event.takenAfter events.length (takenAt events) := by
  rw [takenAt, List.zipIdx_append, List.foldl_append, Nat.zero_add]
  rfl

theorem foundAt_append_single {number : Nat} (h : number ≤ events.length) :
    s.foundAt (events ++ [event]) number = s.foundAt events number := by
  rw [foundAt, List.take_append_of_le_length h, foundAt]

theorem foundAt_length (hrun : s.run events = .ok t) :
    s.foundAt events events.length = some t.on := by
  rw [foundAt, List.take_length, hrun]
  rfl

/-- From a switch at rest, each guard alive puts back the position that the event
    found which took it. -/
theorem guards_eq_found {initial : Bool} (hrun : (atRest initial).run events = .ok t) :
    t.guards.map some = (takenAt events).map ((atRest initial).foundAt events) ∧
      ∀ number ∈ takenAt events, number < events.length := by
  induction events using List.reverseRecOn generalizing t with
  | nil =>
      cases hrun
      exact ⟨rfl, fun number h => by cases h⟩
  | append_singleton events event ih =>
      rcases run_append_single_eq_ok_iff.mp hrun with ⟨next, hfront, hstep⟩
      rcases ih hfront with ⟨hguards, hbound⟩
      -- What the guards taken before put back is not changed by one more event.
      have hkept : (takenAt events).map ((atRest initial).foundAt (events ++ [event])) =
          next.guards.map some := by
        rw [hguards]
        exact List.map_congr_left fun number h =>
          foundAt_append_single (Nat.le_of_lt (hbound number h))
      rw [takenAt_append_single, List.length_append, List.length_singleton]
      cases event with
      | set enabled =>
          rw [step, Except.ok.injEq] at hstep
          rw [← hstep, set, Event.takenAfter, List.map_append, List.map_append, hkept,
            List.map_singleton, List.map_singleton, foundAt_append_single (Nat.le_refl _),
            foundAt_length hfront]
          refine ⟨rfl, fun number h => ?_⟩
          rcases List.mem_append.mp h with hold | hnew
          · exact Nat.lt_succ_of_lt (hbound number hold)
          · rw [List.mem_singleton.mp hnew]
            exact Nat.lt_succ_self _
      | drop index =>
          rcases drop_eq_ok_iff.mp hstep with ⟨restore, _, rfl⟩
          rw [Event.takenAfter, ← List.eraseIdx_map, ← List.eraseIdx_map, hkept]
          exact ⟨rfl, fun number h =>
            Nat.lt_succ_of_lt (hbound number (List.mem_of_mem_eraseIdx h))⟩

/-- The event that drops the last guard alive leaves the position that this guard
    found when it was taken. -/
theorem on_of_last_drop {initial : Bool}
    (hrun : (atRest initial).run (events ++ [.drop index]) = .ok s) :
    ∃ number, (takenAt events)[index]? = some number ∧
      (atRest initial).foundAt events number = some s.on := by
  rcases run_append_single_eq_ok_iff.mp hrun with ⟨next, hfront, hstep⟩
  rcases drop_eq_ok_iff.mp hstep with ⟨restore, hguard, rfl⟩
  have hfound := congrArg (·[index]?) (guards_eq_found hfront).1
  simp only [List.getElem?_map, hguard, Option.map_some] at hfound
  rcases Option.map_eq_some_iff.mp hfound.symm with ⟨number, hnumber, hposition⟩
  exact ⟨number, hnumber, hposition⟩

/-- Once every guard has been dropped, the switch is where it was at first if the
    oldest guard alive was never dropped among others, and so if always the newest
    one was dropped. In any order, it is where the guard dropped last found it. -/
theorem restored_when_oldest_last {initial : Bool}
    (hrun : (atRest initial).run events = .ok s) (hdropped : s.guards = []) :
    (OldestLast 0 events → s.on = initial) ∧ (NewestFirst 0 events → s.on = initial) ∧
      ((events = [] ∧ s.on = initial) ∨
        ∃ front index number, events = front ++ [.drop index] ∧
          (takenAt front)[index]? = some number ∧
          (atRest initial).foundAt front number = some s.on) := by
  have horigin (horder : OldestLast 0 events) : s.on = initial := by
    have h := origin_run hrun horder
    rwa [origin, hdropped] at h
  refine ⟨horigin, fun horder => horigin horder.oldestLast, ?_⟩
  induction events using List.reverseRecOn with
  | nil =>
      cases hrun
      exact Or.inl ⟨rfl, rfl⟩
  | append_singleton front event _ =>
      cases event with
      | set enabled =>
          -- The last event cannot have taken a guard, for that one would be alive.
          rcases run_append_single_eq_ok_iff.mp hrun with ⟨next, _, hstep⟩
          have hlength := length_guards_step hstep
          rw [hdropped, Event.aliveAfter] at hlength
          cases hlength
      | drop index =>
          rcases on_of_last_drop hrun with ⟨number, hnumber, hfound⟩
          exact Or.inr ⟨front, index, number, rfl, hnumber, hfound⟩

/-- Three guards, of which the second and the third overlap inside the first. -/
theorem restored_when_oldest_last_three :
    (atRest true).run [.set false, .set true, .set false, .drop 1, .drop 1, .drop 0] =
        .ok (atRest true) ∧
      OldestLast 0 [.set false, .set true, .set false, .drop 1, .drop 1, .drop 0] ∧
      (atRest true).on = true := by
  have hrun : (atRest true).run [.set false, .set true, .set false, .drop 1, .drop 1, .drop 0] =
      .ok (atRest true) := rfl
  have horder : OldestLast 0 [.set false, .set true, .set false, .drop 1, .drop 1, .drop 0] := by
    simp [OldestLast, Event.aliveAfter]
  exact ⟨hrun, horder, (restored_when_oldest_last hrun rfl).1 horder⟩

/-- Two scopes that both turn the switch off and overlap leave it off: the one
    that started first ends first, and the other one found the switch off. -/
theorem overlapping_guards_stick :
    ∃ s, (atRest true).run [.set false, .set false, .drop 0, .drop 0] = .ok s ∧
      s.guards = [] ∧ s.on ≠ true :=
  ⟨atRest false, rfl, rfl, Bool.false_ne_true⟩

end Switch

end TraceCommit
