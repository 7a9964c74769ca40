import TraceCommit.Proofs.Transform.Refusal

/-!
# The First Cause of a Refusal

A transform in place overwrites its input, so a refusal has to come before the
first write. Four things can be wrong with a call, and they are looked at in this
order: the length is no power of two, it is beyond the two-adicity, the zero
factor promises more zeros than there are inputs, the table supplied is too
small. The first that is wrong is the one that is named.

Nothing behind these checks is refused, although the code there could refuse:
the layers look twiddles up, a transform over a coset runs a second transform
with all of its checks after the scaling, and interpolation inverts the length
after the transform. All of it is settled by the checks before, so whenever there
is an error the buffer is the one that was handed in.

## Main definitions

* `TransformRefusal`: What is wrong with a call, the first cause only.
* `OnBuffer.RefusesExactly`: Errors come for these causes and change nothing.

## Theorems

* `usable_or_refusal`: A call is as it should be, or there is a first cause.
* `fftInPlace_run_of_refusal`, `cosetFftInPlace_run_of_refusal`,
  `ifftInPlace_run_of_refusal`: A cause is named before anything is written.
* `TransformRefusal.unique`: There is only one to name.
* `transforms_refuse_first_cause`: Nothing else is ever refused.
-/

namespace TraceCommit

/-- What is wrong with the transform of `size` inputs. Each cause asks for those
    before it not to apply. -/
inductive TransformRefusal (size zeroFactor : Nat) (table : Option RootTable) :
    TransformError → Prop
  | invalidSize (hsize : ¬ ∃ k, size = 2 ^ k) :
      TransformRefusal size zeroFactor table (.invalidDomainSize size)
  | tooLarge {k : Nat} (hsize : size = 2 ^ k) (hk : 32 < k) :
      TransformRefusal size zeroFactor table (.domainTooLarge k maxLog2Size)
  | zeroFactorTooLarge {k : Nat} (hsize : size = 2 ^ k) (hk : k ≤ 32) (hr : k < zeroFactor) :
      TransformRefusal size zeroFactor table (.invalidZeroFactor zeroFactor k)
  | tableTooSmall {k : Nat} {t : RootTable} (hsize : size = 2 ^ k) (hk : k ≤ 32)
      (hr : zeroFactor ≤ k) (ht : t ∈ table) (hsmall : t.log2Size < k) :
      TransformRefusal size zeroFactor table (.rootTableTooSmall t.log2Size k)

/-- Without a first cause the call is as it should be. -/
theorem usable_or_refusal (size zeroFactor : Nat) (table : Option RootTable) :
    (∃ k, size = 2 ^ k ∧ k ≤ 32 ∧ zeroFactor ≤ k ∧ ∀ t ∈ table, k ≤ t.log2Size) ∨
      ∃ error, TransformRefusal size zeroFactor table error := by
  by_cases hpower : ∃ k, size = 2 ^ k
  · rcases hpower with ⟨k, hsize⟩
    rcases Nat.lt_or_ge 32 k with hk | hk
    · exact Or.inr ⟨_, .tooLarge hsize hk⟩
    rcases Nat.lt_or_ge k zeroFactor with hr | hr
    · exact Or.inr ⟨_, .zeroFactorTooLarge hsize hk hr⟩
    by_cases hcovers : ∀ t ∈ table, k ≤ t.log2Size
    · exact Or.inl ⟨k, hsize, hk, hr, hcovers⟩
    · push Not at hcovers
      rcases hcovers with ⟨t, ht, hsmall⟩
      exact Or.inr ⟨_, .tableTooSmall hsize hk hr ht hsmall⟩
  · exact Or.inr ⟨_, .invalidSize hpower⟩

namespace OnBuffer

/-- The action ends in an error for exactly these causes, and the buffer is then
    what it was. -/
def RefusesExactly (action : OnBuffer Unit) (values : Array Element)
    (refused : TransformError → Prop) : Prop :=
  ∀ error after, action.run values = .error error after ↔ after = values ∧ refused error

/-- It is enough that every cause is named and that without one the action goes
    through. -/
theorem refusesExactly_of {action : OnBuffer Unit} {values : Array Element}
    {refused : TransformError → Prop}
    (hrefused : ∀ error, refused error → action.run values = .error error values)
    (hok : (∃ after, action.run values = .ok () after) ∨ ∃ error, refused error) :
    action.RefusesExactly values refused := by
  intro error after
  constructor
  · intro hrun
    rcases hok with ⟨result, hresult⟩ | ⟨cause, hcause⟩
    · rw [hresult] at hrun
      cases hrun
    · have hsame := hrefused cause hcause
      rw [hrun] at hsame
      cases hsame
      exact ⟨rfl, hcause⟩
  · rintro ⟨rfl, hcause⟩
    exact hrefused error hcause

end OnBuffer

section Refused

variable (e : Engine) {values : Array Element} {error : TransformError}

theorem checkZeroFactor_of_lt {r k : Nat} (hr : k < r) :
    checkZeroFactor r k = .error (.invalidZeroFactor r k) :=
  if_pos hr

/-- The two forward transforms begin with the same checks, whatever follows. -/
theorem run_checks_of_refusal {r : Nat} (h : TransformRefusal values.size r none error)
    (next : Nat → OnBuffer Unit) : (do
      let log2Size ← domainLog2 (← get).size
      checkZeroFactor r log2Size
      next log2Size : OnBuffer Unit).run values = .error error values := by
  cases h with
  | invalidSize hsize => exact run_domainLog2_of_error (domainLog2_of_not_two_pow hsize) _
  | tooLarge hsize hk => exact run_domainLog2_of_error (hsize ▸ domainLog2_of_large hk) _
  | zeroFactorTooLarge hsize hk hr =>
      refine (run_domainLog2_of_ok (hsize ▸ domainLog2_two_pow hk) _).trans ?_
      exact OnBuffer.run_bind_of_error (OnBuffer.run_lift_of_error (checkZeroFactor_of_lt hr))
  | tableTooSmall _ _ _ ht _ => exact absurd ht (Option.not_mem_none _)

theorem cosetFftInPlace_run_of_refusal (shift : Element) (zeroFactor : Option Nat)
    (h : TransformRefusal values.size (zeroFactor.getD 0) none error) :
    (cosetFftInPlace e shift zeroFactor).run values = .error error values :=
  run_checks_of_refusal h _

theorem chooseTable_of_lt {t : RootTable} {k : Nat} (h : t.log2Size < k) :
    chooseTable (some t) k = .error (.rootTableTooSmall t.log2Size k) := by
  have hcovers : ¬ t.covers k = true := by
    unfold RootTable.covers
    rw [decide_eq_true_iff]
    omega
  exact if_neg hcovers

theorem fftInPlace_run_of_refusal (zeroFactor : Option Nat) (table : Option RootTable)
    (h : TransformRefusal values.size (zeroFactor.getD 0) table error) :
    (fftInPlace e zeroFactor table).run values = .error error values := by
  cases h with
  | invalidSize hsize => exact run_checks_of_refusal (.invalidSize hsize) _
  | tooLarge hsize hk => exact run_checks_of_refusal (.tooLarge hsize hk) _
  | zeroFactorTooLarge hsize hk hr =>
      exact run_checks_of_refusal (.zeroFactorTooLarge hsize hk hr) _
  | tableTooSmall hsize hk hr ht hsmall =>
      -- The table is chosen before the buffer is permuted.
      cases ht
      refine (run_domainLog2_of_ok (hsize ▸ domainLog2_two_pow hk) _).trans ?_
      rw [OnBuffer.run_bind_of_ok (OnBuffer.run_lift_of_ok (checkZeroFactor_of_le hr))]
      exact OnBuffer.run_bind_of_error (OnBuffer.run_lift_of_error (chooseTable_of_lt hsmall))

/-- There is one first cause: the one that the transform of any such buffer names. -/
theorem TransformRefusal.unique {size zeroFactor : Nat} {table : Option RootTable}
    {error error' : TransformError} (h : TransformRefusal size zeroFactor table error)
    (h' : TransformRefusal size zeroFactor table error') : error = error' := by
  have hsize : (Array.replicate size (0 : Element)).size = size := Array.size_replicate
  rw [← hsize] at h h'
  have hrun := fftInPlace_run_of_refusal .plain (some zeroFactor) table h
  rw [fftInPlace_run_of_refusal .plain (some zeroFactor) table h'] at hrun
  cases hrun
  rfl

/-- Interpolation takes neither a zero factor nor a table, which leaves the length. -/
theorem ifftInPlace_run_of_refusal (h : TransformRefusal values.size 0 none error) :
    (ifftInPlace e).run values = .error error values := by
  cases h with
  | invalidSize hsize => exact ifftInPlace_run_of_refused e (domainLog2_of_not_two_pow hsize)
  | tooLarge hsize hk => exact ifftInPlace_run_of_refused e (hsize ▸ domainLog2_of_large hk)
  | zeroFactorTooLarge _ _ hr => exact absurd hr (Nat.not_lt_zero _)
  | tableTooSmall _ _ _ ht _ => exact absurd ht (Option.not_mem_none _)

end Refused

section Accepted

variable (c : Capability) (s : Schedule) {values : Array Element}

theorem fftInPlace_refusesExactly (zeroFactor : Option Nat) {table : Option RootTable}
    (htable : ∀ t ∈ table, ∃ m, RootTable.build m = .ok t) :
    (fftInPlace ⟨.of c, s⟩ zeroFactor table).RefusesExactly values
      (TransformRefusal values.size (zeroFactor.getD 0) table) := by
  refine OnBuffer.refusesExactly_of
    (fun error herror => fftInPlace_run_of_refusal _ zeroFactor table herror) ?_
  rcases usable_or_refusal values.size (zeroFactor.getD 0) table with
    ⟨k, hsize, hk, hr, hcovers⟩ | hrefusal
  · have hsupplied : ∀ t ∈ table, t.Supplied k :=
      fun t ht => ⟨decide_eq_true (hcovers t ht), htable t ht⟩
    exact Or.inl ⟨_, fftInPlace_run c s hk hsize zeroFactor hr (chooseTable_supplied hk hsupplied)⟩
  · exact Or.inr hrefusal

/-- The transform inside looks at the scaled buffer, which is as long as the one
    that has been checked. -/
theorem cosetFftInPlace_refusesExactly (shift : Element) (zeroFactor : Option Nat) :
    (cosetFftInPlace ⟨.of c, s⟩ shift zeroFactor).RefusesExactly values
      (TransformRefusal values.size (zeroFactor.getD 0) none) := by
  refine OnBuffer.refusesExactly_of
    (fun error herror => cosetFftInPlace_run_of_refusal _ shift zeroFactor herror) ?_
  rcases usable_or_refusal values.size (zeroFactor.getD 0) none with
    ⟨k, hsize, hk, hr, _⟩ | hrefusal
  · exact Or.inl ⟨_, cosetFftInPlace_run c s hk hsize shift zeroFactor hr⟩
  · exact Or.inr hrefusal

theorem ifftInPlace_refusesExactly : (ifftInPlace ⟨.of c, s⟩).RefusesExactly values
    (TransformRefusal values.size 0 none) := by
  refine OnBuffer.refusesExactly_of (fun error herror => ifftInPlace_run_of_refusal _ herror) ?_
  rcases usable_or_refusal values.size 0 none with ⟨k, hsize, hk, _, _⟩ | hrefusal
  · exact Or.inl ⟨_, ifftInPlace_run c s hk hsize⟩
  · exact Or.inr hrefusal

/-- Behind a transform there are `2 ^ k` values, and the field can divide by that. -/
theorem sizeInverse_of_fftInPlace {after : Array Element}
    (h : (fftInPlace ⟨.of c, s⟩ none none).run values = .ok () after) :
    ∃ inverse, (Element.ofWord (UInt64.ofNat (reverseTail after).size)).inverse = .ok inverse := by
  rcases usable_or_refusal values.size 0 none with ⟨k, hsize, hk, _, _⟩ | ⟨error, herror⟩
  · have hnone : ∀ t ∈ (none : Option RootTable), t.Supplied k :=
      fun t ht => absurd ht (Option.not_mem_none t)
    rw [fftInPlace_none_run c s hk hsize hnone] at h
    cases h
    rw [size_reverseTail, size_spectrum]
    exact ⟨_, sizeInverse_eq hk⟩
  · rw [fftInPlace_run_of_refusal _ none none herror] at h
    cases h

/-- The transforms in place end in an error for the first cause there is and for
    nothing else, they name it, and they leave the buffer as it was. In particular
    interpolation, once the buffer is transformed, divides by the length. -/
theorem transforms_refuse_first_cause (values : Array Element) (shift : Element)
    (zeroFactor : Option Nat) (table : Option RootTable)
    (htable : ∀ t ∈ table, ∃ m, RootTable.build m = .ok t) :
    (fftInPlace ⟨.of c, s⟩ zeroFactor table).RefusesExactly values
        (TransformRefusal values.size (zeroFactor.getD 0) table) ∧
      (cosetFftInPlace ⟨.of c, s⟩ shift zeroFactor).RefusesExactly values
        (TransformRefusal values.size (zeroFactor.getD 0) none) ∧
      (ifftInPlace ⟨.of c, s⟩).RefusesExactly values (TransformRefusal values.size 0 none) ∧
      ∀ after, (fftInPlace ⟨.of c, s⟩ none none).run values = .ok () after →
        ∃ inverse,
          (Element.ofWord (UInt64.ofNat (reverseTail after).size)).inverse = .ok inverse :=
  ⟨fftInPlace_refusesExactly c s zeroFactor htable,
    cosetFftInPlace_refusesExactly c s shift zeroFactor, ifftInPlace_refusesExactly c s,
    fun _ => sizeInverse_of_fftInPlace c s⟩

end Accepted

/-- Four inputs and a table for two. Next to a zero factor of three it is the zero
    factor that is named, and without one it is the table. -/
theorem transforms_refuse_first_cause_four : ∃ t, RootTable.build 1 = .ok t ∧
    (fftInPlace ⟨.of .avx2, .backward 2⟩ (some 3) (some t)).run #[1, 0, Element.two, 1] =
      .error (.invalidZeroFactor 3 2) #[1, 0, Element.two, 1] ∧
    (fftInPlace ⟨.of .avx2, .backward 2⟩ none (some t)).run #[1, 0, Element.two, 1] =
      .error (.rootTableTooSmall 1 2) #[1, 0, Element.two, 1] := by
  have hbuild := RootTable.build_eq (by decide : 1 ≤ 32)
  have htable : ∀ t ∈ some (RootTable.mk 1 ((List.range' 1 1).map twiddles).toArray),
      ∃ m, RootTable.build m = .ok t := by
    intro t ht
    cases ht
    exact ⟨1, hbuild⟩
  have hzeroFactor := (transforms_refuse_first_cause .avx2 (.backward 2) #[1, 0, Element.two, 1] 0
    (some 3) _ htable).1
  have hnone := (transforms_refuse_first_cause .avx2 (.backward 2) #[1, 0, Element.two, 1] 0
    none _ htable).1
  refine ⟨_, hbuild, (hzeroFactor _ _).mpr ⟨rfl, ?_⟩, (hnone _ _).mpr ⟨rfl, ?_⟩⟩
  · exact .zeroFactorTooLarge rfl (by decide) (by decide)
  · exact .tableTooSmall rfl (by decide : 2 ≤ 32) (by decide : 0 ≤ 2) rfl (by decide : 1 < 2)

end TraceCommit
