import TraceCommit.Parallel.Schedule
import Mathlib.Data.List.Nodup

/-!
# Tasks in Any Order

A fork leaves the same result behind whatever order its tasks run in. Each task
replaces the content of its own slot and reads no other, so a slot holds what
its task made of it once that task has run, and what it held before until then.

The statements are made for tasks that succeed, in any monad: the ones without
effects are tasks of the identity monad, and a task that may be refused
succeeds by giving a pure result. Tasks that may also be refused leave the same
result behind if there is only one reason to refuse any of them; with two
reasons the order would decide which one is met first.

## Theorems

* `runTasks_cons_of_lt`, `runTasks_cons_of_le`: What the first of some tasks does.
* `runTasks_eq_pure`: Every slot whose task has run holds what the task made.
* `Schedule.update_eq_pure`: A fork over slots replaces every one.
* `Schedule.collect_eq_pure`: A fork that makes items makes them in order.
* `Schedule.collect_map_eq_pure`: One that works on items maps them.
* `mapM_eq_pure`: So does a list worked through in order.
* `runTasks_eq_error`: Tasks of which some are refused, all for one reason.
* `Schedule.update_eq_error`, `Schedule.collect_eq_error`: So is the whole fork.
* `Schedule.update_congr`, `Schedule.collect_congr`: A fork under two schedules.
-/

namespace TraceCommit

variable {α β : Type} {m : Type → Type} [Monad m] [LawfulMonad m]

/-- The first of some tasks replaces the content of its slot. -/
theorem runTasks_cons_of_lt (task : Nat → α → m α) (rest : List Nat) {i : Nat} {slots : Array α}
    (hi : i < slots.size) : runTasks (i :: rest) task slots =
      task i slots[i] >>= fun content => runTasks rest task (slots.setIfInBounds i content) := by
  simp only [runTasks, List.foldlM_cons, dif_pos hi, bind_assoc, pure_bind]

/-- Without a slot it does nothing. -/
theorem runTasks_cons_of_le (task : Nat → α → m α) (rest : List Nat) {i : Nat} {slots : Array α}
    (hi : slots.size ≤ i) : runTasks (i :: rest) task slots = runTasks rest task slots := by
  simp only [runTasks, List.foldlM_cons, dif_neg (Nat.not_lt_of_le hi), pure_bind]

/-- To replace one more slot first is to replace it with the others. -/
theorem mapIdx_cons_of_lt (f : Nat → α → α) {i : Nat} {rest : List Nat} (hrest : i ∉ rest)
    {slots : Array α} (hi : i < slots.size) :
    ((slots.setIfInBounds i (f i slots[i])).mapIdx fun j x => if j ∈ rest then f j x else x) =
      slots.mapIdx fun j x => if j ∈ i :: rest then f j x else x := by
  refine Array.ext ?_ (fun j h1 h2 => ?_)
  · simp only [Array.size_mapIdx, Array.size_setIfInBounds]
  · rw [Array.size_mapIdx, Array.size_setIfInBounds] at h1
    rw [Array.getElem_mapIdx, Array.getElem_mapIdx, Array.getElem_setIfInBounds h1]
    by_cases hj : i = j
    · subst hj
      rw [if_neg hrest, if_pos rfl, if_pos List.mem_cons_self]
    · have hji : ¬ j = i := fun h => hj h.symm
      simp only [if_neg hj, List.mem_cons, hji, false_or]

/-- A number that no slot has does not matter. -/
theorem mapIdx_cons_of_le (f : Nat → α → α) {i : Nat} (rest : List Nat) {slots : Array α}
    (hi : slots.size ≤ i) : (slots.mapIdx fun j x => if j ∈ rest then f j x else x) =
      slots.mapIdx fun j x => if j ∈ i :: rest then f j x else x := by
  refine Array.ext ?_ (fun j h1 h2 => ?_)
  · simp only [Array.size_mapIdx]
  · rw [Array.size_mapIdx] at h1
    have hji : ¬ j = i := by omega
    simp only [Array.getElem_mapIdx, List.mem_cons, hji, false_or]

/-- Tasks run one after another, each at most once: their slots are replaced
    and the others are as they were. -/
theorem runTasks_eq_pure {task : Nat → α → m α} {f : Nat → α → α} (order : List Nat) :
    order.Nodup → ∀ slots : Array α,
      (∀ i ∈ order, ∀ hi : i < slots.size, task i slots[i] = pure (f i slots[i])) →
        runTasks order task slots =
          pure (slots.mapIdx fun i x => if i ∈ order then f i x else x) := by
  induction order with
  | nil =>
      intro _ slots _
      simp only [runTasks, List.foldlM_nil, List.not_mem_nil, if_false]
      congr 1
      refine Array.ext ?_ (fun j h1 h2 => ?_)
      · rw [Array.size_mapIdx]
      · rw [Array.getElem_mapIdx]
  | cons i rest ih =>
      intro hnodup slots htask
      -- No later task runs on the slot of the first one.
      have hi : i ∉ rest := (List.nodup_cons.mp hnodup).1
      have hrest := ih (List.nodup_cons.mp hnodup).2
      by_cases hlt : i < slots.size
      · rw [runTasks_cons_of_lt task rest hlt, htask i List.mem_cons_self hlt, pure_bind, hrest,
          mapIdx_cons_of_lt f hi hlt]
        intro j hj hjlt
        have hne : i ≠ j := fun h => hi (h ▸ hj)
        rw [Array.size_setIfInBounds] at hjlt
        rw [Array.getElem_setIfInBounds_ne hjlt hne]
        exact htask j (List.mem_cons_of_mem i hj) hjlt
      · have hle : slots.size ≤ i := Nat.le_of_not_lt hlt
        rw [runTasks_cons_of_le task rest hle, ← mapIdx_cons_of_le f rest hle]
        exact hrest slots fun j hj => htask j (List.mem_cons_of_mem i hj)

namespace Schedule

/-- Forked or not, every task runs exactly once. -/
theorem taskOrder_perm (s : Schedule) (forked : Bool) (count : Nat) :
    (s.taskOrder forked count).Perm (List.range count) := by
  unfold taskOrder
  split
  · exact s.order_perm [] count
  · exact List.Perm.refl _

/-- A fork over slots replaces the content of every one. -/
theorem update_eq_pure (s : Schedule) (forked : Bool) {task : Nat → α → m α} (f : Nat → α → α)
    (slots : Array α)
    (htask : ∀ i (hi : i < slots.size), task i slots[i] = pure (f i slots[i])) :
    s.update forked task slots = pure (slots.mapIdx f) := by
  -- The order is a permutation of the tasks, so none runs twice and none is left out.
  have hperm := s.taskOrder_perm forked slots.size
  unfold update
  rw [runTasks_eq_pure _ (hperm.nodup_iff.mpr List.nodup_range) slots (fun i _ => htask i)]
  congr 1
  refine Array.ext ?_ (fun i h1 h2 => ?_)
  · simp only [Array.size_mapIdx]
  · rw [Array.size_mapIdx] at h1
    have hmem : i ∈ s.taskOrder forked slots.size :=
      hperm.mem_iff.mpr (List.mem_range.mpr h1)
    simp only [Array.getElem_mapIdx, if_pos hmem]

/-- A fork that makes items makes them in the order of its tasks. -/
theorem collect_eq_pure (s : Schedule) (forked : Bool) (count : Nat) {task : Nat → m β}
    (f : Nat → β) (htask : ∀ i < count, task i = pure (f i)) :
    s.collect forked count task = pure (Array.ofFn fun i : Fin count => f i) := by
  simp only [collect]
  rw [s.update_eq_pure forked (fun i _ => some (f i)) (Array.replicate count none), pure_bind]
  · -- Every slot has been filled, so none is dropped when the items are taken out.
    have hslots : ((Array.replicate count none).mapIdx fun i (_ : Option β) => some (f i)) =
        (Array.ofFn fun i : Fin count => f i).map some := by
      refine Array.ext ?_ (fun i h1 h2 => ?_)
      · simp only [Array.size_mapIdx, Array.size_replicate, Array.size_map, Array.size_ofFn]
      · simp only [Array.getElem_mapIdx, Array.getElem_map, Array.getElem_ofFn]
    rw [hslots, Array.filterMap_map, Function.id_comp, Array.filterMap_some]
  · intro i hi
    rw [Array.size_replicate] at hi
    rw [htask i hi, pure_bind]

/-- A fork with a task for each item of a sequence maps the sequence. -/
theorem collect_map_eq_pure (s : Schedule) (forked : Bool) (xs : Array α) (spare : α)
    {task : Nat → m β} (f : α → β)
    (htask : ∀ i (hi : i < xs.size), task i = pure (f xs[i])) :
    s.collect forked xs.size task = pure (xs.map f) := by
  rw [s.collect_eq_pure forked xs.size (fun i => f (xs.getD i spare))]
  · congr 1
    refine Array.ext ?_ (fun i h1 h2 => ?_)
    · rw [Array.size_ofFn, Array.size_map]
    · rw [Array.size_ofFn] at h1
      rw [Array.getElem_ofFn, Array.getElem_map, ← Array.getElem_eq_getD (h := h1) spare]
  · intro i hi
    rw [htask i hi, Array.getElem_eq_getD spare]

end Schedule

/-- A list is worked through without a refusal if none of its items is refused. -/
theorem mapM_eq_pure {f : α → m β} {g : α → β} {items : List α}
    (hf : ∀ a ∈ items, f a = pure (g a)) : items.mapM f = pure (items.map g) := by
  induction items with
  | nil => rfl
  | cons a rest ih =>
      rw [List.mapM_cons, hf a List.mem_cons_self, pure_bind,
        ih (fun b hb => hf b (List.mem_cons_of_mem a hb)), pure_bind, List.map_cons]

section Refusals

variable {ε : Type}

/-- Tasks that run one after another are refused if one of them is, and it does
    not matter which if there is only one reason to refuse any. -/
theorem runTasks_eq_error {task : Nat → α → Except ε α} {e : ε} (order : List Nat) :
    order.Nodup → ∀ slots : Array α,
      (∀ i ∈ order, ∀ x e', slots[i]? = some x → task i x = .error e' → e' = e) →
      (∃ i ∈ order, ∃ x, slots[i]? = some x ∧ task i x = .error e) →
        runTasks order task slots = .error e := by
  induction order with
  | nil =>
      intro _ _ _ hrefused
      simp at hrefused
  | cons i rest ih =>
      intro hnodup slots hreason hrefused
      have hi : i ∉ rest := (List.nodup_cons.mp hnodup).1
      have hrest := ih (List.nodup_cons.mp hnodup).2
      by_cases hlt : i < slots.size
      · have hslot : slots[i]? = some slots[i] := Array.getElem?_eq_getElem hlt
        rw [runTasks_cons_of_lt task rest hlt]
        cases htask : task i slots[i] with
        | error e' =>
            rw [← hreason i List.mem_cons_self _ e' hslot htask]
            rfl
        | ok content =>
            -- The tasks left find in their slots what stood there before.
            have hkept (j : Nat) (hj : j ∈ rest) :
                (slots.setIfInBounds i content)[j]? = slots[j]? := by
              have hne : i ≠ j := fun h => hi (h ▸ hj)
              exact Array.getElem?_setIfInBounds_ne hne
            apply hrest
            · intro j hj x e' hx hrefuse
              rw [hkept j hj] at hx
              exact hreason j (List.mem_cons_of_mem i hj) x e' hx hrefuse
            · rcases hrefused with ⟨j, hj, x, hx, hrefuse⟩
              rcases List.mem_cons.mp hj with rfl | hmem
              · rw [hslot, Option.some.injEq] at hx
                rw [hx, hrefuse] at htask
                cases htask
              · exact ⟨j, hmem, x, by rwa [hkept j hmem], hrefuse⟩
      · -- The first task has no slot, so it is another one that is refused.
        rw [runTasks_cons_of_le task rest (Nat.le_of_not_lt hlt)]
        apply hrest slots (fun j hj => hreason j (List.mem_cons_of_mem i hj))
        rcases hrefused with ⟨j, hj, x, hx, hrefuse⟩
        rcases List.mem_cons.mp hj with rfl | hmem
        · rw [Array.getElem?_eq_none (by omega)] at hx
          cases hx
        · exact ⟨j, hmem, x, hx, hrefuse⟩

/-- A slot is not filled because its item is refused. -/
theorem eq_error_of_some {item : Except ε β} {e : ε}
    (h : (item >>= fun b => pure (some b)) = Except.error e) : item = .error e := by
  cases item with
  | error e' =>
      cases h
      rfl
  | ok b => cases h

namespace Schedule

variable {e : ε} (s s' : Schedule) (forked forked' : Bool)

theorem update_eq_error {task : Nat → α → Except ε α} {slots : Array α}
    (hreason : ∀ i x e', slots[i]? = some x → task i x = .error e' → e' = e)
    (hrefused : ∃ i x, slots[i]? = some x ∧ task i x = .error e) :
    s.update forked task slots = .error e := by
  rcases hrefused with ⟨i, x, hx, hrefuse⟩
  have hperm := s.taskOrder_perm forked slots.size
  have hlt : i < slots.size := (Array.getElem?_eq_some_iff.mp hx).1
  unfold update
  -- The task that is refused has its turn in every order.
  apply runTasks_eq_error
  · exact hperm.nodup_iff.mpr List.nodup_range
  · intro j _ y e' hy hrefuse'
    exact hreason j y e' hy hrefuse'
  · exact ⟨i, hperm.mem_iff.mpr (List.mem_range.mpr hlt), x, hx, hrefuse⟩

/-- A fork that makes items is refused if one of its tasks is. -/
theorem collect_eq_error {count : Nat} {task : Nat → Except ε β}
    (hreason : ∀ i < count, ∀ e', task i = .error e' → e' = e)
    (hrefused : ∃ i < count, task i = .error e) :
    s.collect forked count task = .error e := by
  simp only [collect]
  rw [s.update_eq_error forked]
  · rfl
  · intro i x e' hx hrefuse
    have hlt := (Array.getElem?_eq_some_iff.mp hx).1
    rw [Array.size_replicate] at hlt
    exact hreason i hlt e' (eq_error_of_some hrefuse)
  · rcases hrefused with ⟨i, hi, hrefuse⟩
    refine ⟨i, none, ?_, ?_⟩
    · simp [hi]
    · rw [hrefuse]
      rfl

/-- A fork over slots leaves the same behind under any two schedules, forked or
    not, if there is only one reason to refuse a task. -/
theorem update_congr {task : Nat → α → Except ε α} {slots : Array α}
    (hreason : ∀ i x e', slots[i]? = some x → task i x = .error e' → e' = e) :
    s.update forked task slots = s'.update forked' task slots := by
  by_cases hrefused : ∃ i x, slots[i]? = some x ∧ task i x = .error e
  · rw [s.update_eq_error forked hreason hrefused, s'.update_eq_error forked' hreason hrefused]
  · have hok (i : Nat) (hi : i < slots.size) :
        task i slots[i] = pure ((task i slots[i]).toOption.getD slots[i]) := by
      have hslot : slots[i]? = some slots[i] := Array.getElem?_eq_getElem hi
      cases htask : task i slots[i] with
      | error e' =>
          rw [hreason i _ e' hslot htask] at htask
          exact absurd ⟨i, _, hslot, htask⟩ hrefused
      | ok content => rfl
    rw [s.update_eq_pure forked (fun i x => (task i x).toOption.getD x) slots hok,
      s'.update_eq_pure forked' (fun i x => (task i x).toOption.getD x) slots hok]

/-- The same holds for a fork that makes items. -/
theorem collect_congr {count : Nat} {task : Nat → Except ε β}
    (hreason : ∀ i < count, ∀ e', task i = .error e' → e' = e) :
    s.collect forked count task = s'.collect forked' count task := by
  simp only [collect]
  rw [s.update_congr s' forked forked']
  intro i x e' hx hrefuse
  have hlt := (Array.getElem?_eq_some_iff.mp hx).1
  rw [Array.size_replicate] at hlt
  exact hreason i hlt e' (eq_error_of_some hrefuse)

end Schedule

end Refusals

end TraceCommit
