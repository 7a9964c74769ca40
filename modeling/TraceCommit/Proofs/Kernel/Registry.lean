import TraceCommit.Kernel.Registry

/-!
# What a Process Settles on

A registry under a sequence of calls, in any order and of any length. Of all
the calls only one matters for what the registry holds: the first that asks for
the capability in use, or that installs one the processor provides. Every
answer behind it is determined by that call, so the answers are stated for a
call behind an arbitrary history.

`install_cases` and `active_eq` say once what the two calls can do. From them
comes what a single call leaves, and by induction what a history leaves.

## Main definitions

* `Registry.Call`: The two calls.
* `Registry.Call.settlesOn?`: What a call settles an unsettled process on.
* `Registry.after`: A process behind a history.
* `Registry.Answers`: What a process that holds a capability answers.

## Theorems

* `Registry.install_cases`: The three ways in which an installation ends.
* `Registry.settled_carryOut`: What one call leaves.
* `Registry.settled_after`: What a history leaves.
* `Registry.settles_once`: The first call that settles decides all answers.
-/

namespace TraceCommit

namespace Registry

/-- A call that a process makes. -/
inductive Call
  /-- Asks for the capability in use. -/
  | active
  /-- Installs a capability. -/
  | install (capability : Capability)
deriving DecidableEq, Repr

/-- The capability that a call settles a process on that has settled on nothing. -/
def Call.settlesOn? (provides : Capability → Bool) : Call → Option Capability
  | .active => some .scalar
  | .install capability => if provides capability then some capability else none

/-- The process behind a call. -/
def carryOut (r : Registry) : Call → Registry
  | .active => r.active.2
  | .install capability => (r.install capability).2

/-- The process behind a sequence of calls. -/
def after (r : Registry) (calls : List Call) : Registry := calls.foldl carryOut r

variable (r : Registry) (call : Call) (calls : List Call)

/-- The capability in use is the one held, or the scalar one, and is held from
    then on. -/
theorem active_eq : r.active.1 = r.settled.getD .scalar ∧ r.active.2.settled = some r.active.1 ∧
    r.active.2.provides = r.provides := by
  rw [active]
  cases hsettled : r.settled with
  | none => exact ⟨rfl, rfl, rfl⟩
  | some capability => exact ⟨rfl, hsettled, rfl⟩

/-- An installation is refused because of the processor, or because another
    capability is held, and changes nothing then; or it succeeds. -/
theorem install_cases (capability : Capability) :
    (r.provides capability = false ∧
      r.install capability = (.error (.unsupported capability), r)) ∨
    (r.provides capability = true ∧ ∃ installed, r.settled = some installed ∧
      installed ≠ capability ∧
      r.install capability = (.error (.alreadyInstalled installed capability), r)) ∨
    (r.provides capability = true ∧ (r.settled = none ∨ r.settled = some capability) ∧
      r.install capability = (.ok capability, { r with settled := some capability })) := by
  rw [install]
  cases hprovides : r.provides capability with
  | false => exact Or.inl ⟨rfl, rfl⟩
  | true =>
      refine Or.inr ?_
      cases hsettled : r.settled with
      | none => exact Or.inr ⟨rfl, Or.inl rfl, rfl⟩
      | some installed =>
          by_cases hsame : installed = capability
          · refine Or.inr ⟨rfl, Or.inr (congrArg some hsame), ?_⟩
            rw [if_pos rfl]
            simp only [if_pos hsame]
            rw [← hsame, ← hsettled]
          · refine Or.inl ⟨rfl, installed, rfl, hsame, ?_⟩
            rw [if_pos rfl]
            exact if_neg hsame

/-- Nothing changes what the processor provides. -/
theorem provides_carryOut : (r.carryOut call).provides = r.provides := by
  cases call with
  | active => exact r.active_eq.2.2
  | install capability =>
      rw [carryOut]
      rcases r.install_cases capability with ⟨_, h⟩ | ⟨_, _, _, _, h⟩ | ⟨_, _, h⟩
      · rw [h]
      · rw [h]
      · rw [h]

/-- A call keeps what has been settled on, and otherwise leaves what it settles
    on itself. -/
theorem settled_carryOut :
    (r.carryOut call).settled = r.settled.or (call.settlesOn? r.provides) := by
  cases call with
  | active =>
      rw [carryOut, r.active_eq.2.1, r.active_eq.1, Call.settlesOn?]
      cases r.settled with
      | none => rfl
      | some capability => rfl
  | install capability =>
      rw [carryOut, Call.settlesOn?]
      rcases r.install_cases capability with
        ⟨hprovides, h⟩ | ⟨_, installed, hsettled, _, h⟩ | ⟨hprovides, hsettled, h⟩
      · rw [h, hprovides, if_neg Bool.false_ne_true, Option.or_none]
      · rw [h, hsettled, Option.some_or]
      · rw [h, hprovides, if_pos rfl]
        rcases hsettled with hnone | hsame
        · rw [hnone, Option.none_or]
        · rw [hsame, Option.some_or]

theorem provides_after : (r.after calls).provides = r.provides := by
  induction calls generalizing r with
  | nil => rfl
  | cons call rest ih => exact (ih (r.carryOut call)).trans (r.provides_carryOut call)

/-- Behind a history a process holds what it held before, or else what the first
    call settles on that settles on anything. -/
theorem settled_after :
    (r.after calls).settled = r.settled.or (calls.findSome? (Call.settlesOn? r.provides)) := by
  induction calls generalizing r with
  | nil => exact Option.or_none.symm
  | cons call rest ih =>
      have hrest := ih (r.carryOut call)
      rw [r.settled_carryOut, r.provides_carryOut, Option.or_assoc] at hrest
      rw [List.findSome?_cons]
      refine hrest.trans (congrArg r.settled.or ?_)
      cases call.settlesOn? r.provides with
      | none => rfl
      | some capability => rfl

theorem after_append (later : List Call) : r.after (calls ++ later) = (r.after calls).after later :=
  List.foldl_append

/-- What a process answers on a processor with some capabilities, if it has
    settled on the given one or on none. -/
structure Answers (now : Registry) (provides : Capability → Bool) (settled : Option Capability) :
    Prop where
  /-- It holds that capability. -/
  holds : now.settled = settled
  /-- It uses that capability, or the scalar one if there is none, -/
  active : now.active.1 = settled.getD .scalar
  /-- and from then on holds the one it uses. -/
  active_settles : now.active.2.settled = some now.active.1
  /-- Installing succeeds if the capability is provided and no other is held, -/
  install_ok_iff : ∀ capability, (∃ used, (now.install capability).1 = .ok used) ↔
    provides capability = true ∧ ∀ installed, settled = some installed → installed = capability
  /-- in which case the process uses and holds what was asked for. -/
  install_ok : ∀ capability used, (now.install capability).1 = .ok used →
    used = capability ∧ (now.install capability).2.settled = some capability
  /-- What is not provided is refused, and nothing changes. -/
  install_unsupported : ∀ capability, provides capability = false →
    now.install capability = (.error (.unsupported capability), now)
  /-- What is held is not replaced, and the refusal names both. -/
  install_taken : ∀ capability installed, provides capability = true → settled = some installed →
    installed ≠ capability →
      now.install capability = (.error (.alreadyInstalled installed capability), now)

/-- A process answers as its own state calls for. -/
theorem answers_self : r.Answers r.provides r.settled where
  holds := rfl
  active := r.active_eq.1
  active_settles := r.active_eq.2.1
  install_ok_iff capability := by
    rcases r.install_cases capability with
      ⟨hprovides, h⟩ | ⟨_, installed, hsettled, hne, h⟩ | ⟨hprovides, hsettled, h⟩
    · simp [h, hprovides]
    · simp [h, hsettled, hne]
    · rcases hsettled with hnone | hsame
      · simp [h, hprovides, hnone]
      · simp [h, hprovides, hsame]
  install_ok capability used hused := by
    rcases r.install_cases capability with ⟨_, h⟩ | ⟨_, _, _, _, h⟩ | ⟨_, _, h⟩
    · rw [h] at hused
      cases hused
    · rw [h] at hused
      cases hused
    · rw [h, Except.ok.injEq] at hused
      exact ⟨hused.symm, by rw [h]⟩
  install_unsupported capability hprovides := by
    rcases r.install_cases capability with ⟨_, h⟩ | ⟨hyes, _⟩ | ⟨hyes, _⟩
    · exact h
    · rw [hprovides] at hyes
      cases hyes
    · rw [hprovides] at hyes
      cases hyes
  install_taken capability installed hprovides hsettled hne := by
    rcases r.install_cases capability with ⟨hno, _⟩ | ⟨_, held, hheld, _, h⟩ | ⟨_, hfree, _⟩
    · rw [hprovides] at hno
      cases hno
    · rw [hsettled, Option.some.injEq] at hheld
      rw [h, hheld]
    · rw [hsettled] at hfree
      simp [hne] at hfree

/-- A process that starts with nothing settled answers, behind any calls, as the
    first of them has settled it that asks for the capability in use or installs
    one the processor provides; and no later calls change that. -/
theorem settles_once {r : Registry} (hfresh : r.settled = none) (calls : List Call) :
    (r.after calls).Answers r.provides (calls.findSome? (Call.settlesOn? r.provides)) ∧
      ∀ (later : List Call) (installed : Capability),
        (r.after calls).settled = some installed →
          (r.after (calls ++ later)).settled = some installed := by
  have hsettled : (r.after calls).settled = calls.findSome? (Call.settlesOn? r.provides) := by
    rw [r.settled_after, hfresh, Option.none_or]
  refine ⟨?_, fun later installed hinstalled => ?_⟩
  · have hanswers := (r.after calls).answers_self
    rwa [r.provides_after, hsettled] at hanswers
  · rw [r.after_append, settled_after, hinstalled, Option.some_or]

/-- On a processor without the widest lanes the second of three installations is
    the one that counts. -/
theorem settles_once_narrow :
    (⟨fun capability => capability != .avx512, rfl, none⟩ : Registry).settled = none ∧
      ((⟨fun capability => capability != .avx512, rfl, none⟩ : Registry).after
        [.install .avx512, .install .avx2, .active, .install .scalar]).Answers
          (fun capability => capability != .avx512) (some .avx2) :=
  ⟨rfl, (settles_once rfl [.install .avx512, .install .avx2, .active, .install .scalar]).1⟩

end Registry

end TraceCommit
