import TraceCommit.Proofs.Field.Bytes
import TraceCommit.Proofs.Hash.Keccak.Bijective
import Mathlib.Dynamics.PeriodicPts.Lemmas

/-!
# Twelve Elements From a Permutation of Lanes

The loop that collects canonical lanes of one permuted state after another has
nothing that decreases: a state may have no canonical lane at all, and so may the
next. It ends because a bijection of finitely many states leads back to the state
it started from, whose first twelve lanes are elements. No more states than there
are come before that, so the bound on the loop is never what ends it.

What the loop has collected at its end are all canonical lanes of the states that
it went through, in order, and the first twelve of them are the result.

## Main definitions

* `Keccak.filledState`: Twelve elements with zeros behind them.
* `Keccak.successiveLanes`: The lanes of one permuted state after another.
* `Keccak.Collects`: What the loop does, with no bound on its passes.

## Theorems

* `Keccak.Collects.toList_eq`: What has been collected.
* `Keccak.Collects.collect_eq`: The bounded loop does the same.
* `Keccak.exists_collects`: The loop ends where there are lanes enough.
* `Keccak.exists_iterate_eq_self`: States come round.
* `keccak_elements_first_canonical`: The loop ends, with the first canonical lanes.
-/

namespace TraceCommit

namespace Keccak

variable {f : State → State} {s : State}

/-- The first lanes hold the elements, and the others are zero. -/
def filledState (elements : Vector Element 12) : State :=
  elements.map Element.val ++ (Vector.replicate 13 0 : Vector UInt64 13)

theorem getElem_filledState (elements : Vector Element 12) {i : Nat} (hi : i < 25) :
    (filledState elements)[i] = if h : i < 12 then elements[i].val else 0 := by
  refine (Vector.getElem_append hi).trans ?_
  simp only [Vector.getElem_map, Vector.getElem_replicate]

theorem permuteElementsWith_eq (f : State → State) (elements : Vector Element 12) :
    permuteElementsWith f elements = Vector.ofFn fun i =>
      (collect f stateCount (filledState elements) #[]).getD i 0 := by
  have hstart : (Vector.ofFn fun i : Fin 25 => if h : i.val < 12 then elements[i.val].val else 0) =
      filledState elements := by
    refine Vector.ext fun i hi => ?_
    rw [Vector.getElem_ofFn, getElem_filledState]
  rw [permuteElementsWith, hstart]

/-- The lanes of the first `count` states that come after `s`. -/
def successiveLanes (f : State → State) (s : State) (count : Nat) : List UInt64 :=
  (List.range count).flatMap fun i => (f^[i + 1] s).toList

theorem successiveLanes_succ (f : State → State) (s : State) (count : Nat) :
    successiveLanes f s (count + 1) = (f s).toList ++ successiveLanes f (f s) count := by
  rw [successiveLanes, List.range_succ_eq_map, List.flatMap_cons, List.flatMap_map]
  rfl

theorem successiveLanes_append_last (f : State → State) (s : State) (count : Nat) :
    successiveLanes f s (count + 1) = successiveLanes f s count ++ (f^[count + 1] s).toList := by
  rw [successiveLanes, List.range_succ, List.flatMap_append, List.flatMap_singleton]
  rfl

theorem exists_successiveLanes_eq_append {count more : Nat} (h : count ≤ more) :
    ∃ rest, successiveLanes f s more = successiveLanes f s count ++ rest := by
  induction more, h using Nat.le_induction with
  | base => exact ⟨[], (List.append_nil _).symm⟩
  | succ more _ ih =>
      rcases ih with ⟨rest, hrest⟩
      exact ⟨rest ++ (f^[more + 1] s).toList,
        by rw [successiveLanes_append_last, hrest, List.append_assoc]⟩

/-- The elements among words are the canonical words. -/
theorem map_val_filterMap_ofWord? (words : List UInt64) :
    (words.filterMap Element.ofWord?).map Element.val = words.filter (· < modulus) := by
  induction words with
  | nil => rfl
  | cons w rest ih =>
      by_cases hw : w < modulus
      · have hword : Element.ofWord? w = some ⟨w, hw⟩ := Element.ofWord?_eq_some_iff.mpr rfl
        rw [List.filterMap_cons_some hword, List.map_cons, ih, List.filter_cons,
          if_pos (decide_eq_true hw)]
      · have hword : Element.ofWord? w = none :=
          Element.ofWord?_eq_none_iff.mpr (UInt64.not_lt.mp hw)
        rw [List.filterMap_cons_none hword, ih, List.filter_cons, decide_eq_false hw,
          if_neg Bool.false_ne_true]

theorem toList_filterMap_lanes (s : State) :
    (s.toArray.filterMap Element.ofWord?).toList = s.toList.filterMap Element.ofWord? :=
  Array.toList_filterMap

/-- What the loop does from a state with some elements collected: after so many
    passes it ends with a result. -/
inductive Collects (f : State → State) : State → Array Element → Nat → Array Element → Prop
  | enough {s : State} {found : Array Element} (h : 12 ≤ found.size) : Collects f s found 0 found
  | another {s : State} {found result : Array Element} {passes : Nat} (h : found.size < 12)
      (hrest : Collects f (f s) (found ++ (f s).toArray.filterMap Element.ofWord?) passes result) :
      Collects f s found (passes + 1) result

namespace Collects

variable {found result : Array Element} {passes : Nat}

theorem size_ge (h : Collects f s found passes result) : 12 ≤ result.size := by
  induction h with
  | enough h => exact h
  | another _ _ ih => exact ih

theorem toList_eq (h : Collects f s found passes result) :
    result.toList = found.toList ++ (successiveLanes f s passes).filterMap Element.ofWord? := by
  induction h with
  | enough _ => exact (List.append_nil _).symm
  | another _ _ ih =>
      rw [ih, successiveLanes_succ, List.filterMap_append, Array.toList_append,
        toList_filterMap_lanes, List.append_assoc]

/-- A bound that the passes keep to makes no difference. -/
theorem collect_eq (h : Collects f s found passes result) {bound : Nat} (hbound : passes ≤ bound) :
    collect f bound s found = result := by
  induction h generalizing bound with
  | enough h =>
      cases bound with
      | zero => rfl
      | succ bound => rw [collect, if_pos h]
  | another h _ ih =>
      cases bound with
      | zero => exact absurd hbound (Nat.not_succ_le_zero _)
      | succ bound =>
          rw [collect, if_neg (Nat.not_le.mpr h)]
          exact ih (Nat.le_of_succ_le_succ hbound)

/-- The first twelve collected are the first twelve canonical lanes, of the states
    that the loop went through and of any more. -/
theorem map_val_take (h : Collects f s #[] passes result) {count : Nat} (hcount : passes ≤ count) :
    (result.toList.take 12).map Element.val =
      ((successiveLanes f s count).filter (· < modulus)).take 12 := by
  have hlanes : result.toList.map Element.val =
      (successiveLanes f s passes).filter (· < modulus) := by
    rw [h.toList_eq, List.nil_append, map_val_filterMap_ofWord?]
  have hlength : 12 ≤ ((successiveLanes f s passes).filter (· < modulus)).length := by
    rw [← hlanes, List.length_map]
    exact h.size_ge
  rcases exists_successiveLanes_eq_append hcount with ⟨rest, hrest⟩
  rw [hrest, List.filter_append, List.take_append_of_le_length hlength, ← hlanes, List.map_take]

end Collects

/-- Where some number of states has lanes enough, the loop ends within it. -/
theorem exists_collects (count : Nat) {found : Array Element}
    (h : 12 ≤ found.size + ((successiveLanes f s count).filterMap Element.ofWord?).length) :
    ∃ passes ≤ count, ∃ result, Collects f s found passes result := by
  induction count generalizing s found with
  | zero => exact ⟨0, le_rfl, found, .enough h⟩
  | succ count ih =>
      rcases Nat.lt_or_ge found.size 12 with hfew | hmany
      · have hnext : 12 ≤ (found ++ (f s).toArray.filterMap Element.ofWord?).size +
            ((successiveLanes f (f s) count).filterMap Element.ofWord?).length := by
          rwa [successiveLanes_succ, List.filterMap_append, List.length_append,
            ← toList_filterMap_lanes, Array.length_toList, ← Nat.add_assoc,
            ← Array.size_append] at h
        rcases ih hnext with ⟨passes, hpasses, result, hresult⟩
        exact ⟨passes + 1, Nat.succ_le_succ hpasses, result, .another hfew hresult⟩
      · exact ⟨0, Nat.zero_le _, found, .enough hmany⟩

theorem card_state : Nat.card State = stateCount := by
  have hword : Nat.card UInt64 = 2 ^ 64 := by
    rw [Nat.card_eq_fintype_card, ← FinEnum.card_eq_fintypeCard, FinEnum.card_UInt64]
  -- For any exponent, so that nothing computes the power.
  have hshift (n : Nat) : 2 ^ n = 1 <<< n := (Nat.one_shiftLeft n).symm
  rw [card_vector, hword, ← pow_mul, hshift, stateCount]

/-- A bijection leads every state back to itself, through no more states than
    there are. -/
theorem exists_iterate_eq_self (hf : Function.Bijective f) (s : State) :
    ∃ count, count + 1 ≤ stateCount ∧ f^[count + 1] s = s := by
  have hperiodic := hf.injective.mem_periodicPts s
  have hpos := Function.minimalPeriod_pos_of_mem_periodicPts hperiodic
  have hfinite : Fintype State := Fintype.ofFinite State
  have hle : Function.minimalPeriod f s ≤ stateCount := by
    rw [← card_state, Nat.card_eq_fintype_card]
    exact Function.minimalPeriod_le_card
  refine ⟨Function.minimalPeriod f s - 1, ?_, ?_⟩
  · rwa [Nat.sub_add_cancel hpos]
  · rw [Nat.sub_add_cancel hpos]
    exact Function.iterate_minimalPeriod

/-- All elements of a filled state are found among its lanes. -/
theorem length_filledState_ge (elements : Vector Element 12) :
    12 ≤ ((filledState elements).toList.filterMap Element.ofWord?).length := by
  have hwords : Element.ofWord? ∘ Element.val = some :=
    funext fun _ => Element.ofWord?_eq_some_iff.mpr rfl
  rw [filledState, Vector.toList_append, Vector.toList_map, List.filterMap_append,
    List.filterMap_map, hwords, List.filterMap_some, List.length_append, Vector.length_toList]
  exact Nat.le_add_right 12 _

/-- The loop ends from every filled state, before its bound. -/
theorem exists_collects_filledState (hf : Function.Bijective f) (elements : Vector Element 12) :
    ∃ passes ≤ stateCount, ∃ result, Collects f (filledState elements) #[] passes result := by
  rcases exists_iterate_eq_self hf (filledState elements) with ⟨count, hcount, hreturn⟩
  have hlanes := length_filledState_ge elements
  have henough : 12 ≤ (#[] : Array Element).size +
      ((successiveLanes f (filledState elements) (count + 1)).filterMap
        Element.ofWord?).length := by
    rw [successiveLanes_append_last, hreturn, List.filterMap_append, List.length_append]
    omega
  rcases exists_collects (count + 1) henough with ⟨passes, hpasses, hresult⟩
  exact ⟨passes, hpasses.trans hcount, hresult⟩

/-- The elements of the result are the first twelve collected. -/
theorem toList_permuteElementsWith {elements : Vector Element 12} {passes : Nat}
    {result : Array Element} (hpasses : passes ≤ stateCount)
    (h : Collects f (filledState elements) #[] passes result) :
    (permuteElementsWith f elements).toList = result.toList.take 12 := by
  have hsize := h.size_ge
  rw [permuteElementsWith_eq, h.collect_eq hpasses]
  refine List.ext_getElem ?_ fun i hi hi' => ?_
  · rw [Vector.length_toList, List.length_take, Array.length_toList, Nat.min_eq_left hsize]
  · have hfound : i < result.size :=
      Nat.lt_of_lt_of_le hi' (List.length_take_le' 12 result.toList)
    rw [Vector.getElem_toList, Vector.getElem_ofFn, List.getElem_take, Array.getElem_toList,
      Array.getD_eq_getD_getElem?, Array.getElem?_eq_getElem hfound, Option.getD_some]

end Keccak

/-- From any elements and with any bijection of states, the loop ends. The results
    are the first twelve lanes below the modulus, in order, of the states that come
    after the filled one, however many more of these are looked at than the loop
    went through. -/
theorem keccak_elements_first_canonical {f : Keccak.State → Keccak.State}
    (hf : Function.Bijective f) (elements : Vector Element 12) :
    ∃ passes ≤ Keccak.stateCount, ∃ found,
      Keccak.Collects f (Keccak.filledState elements) #[] passes found ∧
      (Keccak.permuteElementsWith f elements).toList = found.toList.take 12 ∧
      (∀ count, passes ≤ count → (Keccak.permuteElementsWith f elements).toList.map Element.val =
        ((Keccak.successiveLanes f (Keccak.filledState elements) count).filter
          (· < modulus)).take 12) ∧
      ∀ e ∈ (Keccak.permuteElementsWith f elements).toList, e.val < modulus := by
  rcases Keccak.exists_collects_filledState hf elements with ⟨passes, hpasses, found, hfound⟩
  have hresult := Keccak.toList_permuteElementsWith hpasses hfound
  refine ⟨passes, hpasses, found, hfound, hresult, fun count hcount => ?_, fun e _ => e.isCanonical⟩
  rw [hresult]
  exact hfound.map_val_take hcount

/-- With Keccak-f, which is a bijection, from twelve times the greatest element. -/
theorem keccak_elements_first_canonical_greatest :
    Function.Bijective Keccak.permute ∧
      let start := Keccak.filledState (Vector.replicate 12 Element.negOne)
      let output := Keccak.permuteElements (Vector.replicate 12 Element.negOne)
      ∃ passes ≤ Keccak.stateCount, ∃ found,
        Keccak.Collects Keccak.permute start #[] passes found ∧
        output.toList = found.toList.take 12 ∧
        (∀ count, passes ≤ count → output.toList.map Element.val =
          ((Keccak.successiveLanes Keccak.permute start count).filter (· < modulus)).take 12) ∧
        ∀ e ∈ output.toList, e.val < modulus :=
  ⟨Keccak.permute_bijective, keccak_elements_first_canonical Keccak.permute_bijective _⟩

end TraceCommit
