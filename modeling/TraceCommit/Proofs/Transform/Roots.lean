import TraceCommit.Proofs.Entries
import TraceCommit.Proofs.Parallel.Tasks

/-!
# The Tables of Twiddles

What stands in a root table. Its layers are the first powers of the roots of
the tower, and since a layer is made without regard to the table's size, any
table that covers a domain holds that domain's twiddles.

## Main definitions

* `twiddles`: The first powers of the root of order `2 ^ k`, half of them.
* `RootTable.Serves`: The table has the twiddles of a domain's layers.
* `RootCache.Faithful`: The cache holds tables as they are built.

## Theorems

* `domainLog2_of_large`, `domainLog2_of_not_two_pow`: Sizes that are refused.
* `domainLog2_two_pow`, `domainLog2_eq_ok_iff`: Powers of two up to the
  two-adicity are usable, and nothing else is.
* `RootTable.build_eq`: The table that is built.
* `RootTable.serves_of_covers`: A built table serves the domains it covers.
* `RootCache.request_cases`: The three ways in which a request ends.
* `RootCache.request_of_faithful`: A cached table is the one that is built.
* `chooseTable_none`: So does the table of the domain itself.
-/

namespace TraceCommit

theorem not_maxLog2Size_lt {k : Nat} (hk : k ≤ 32) : ¬ maxLog2Size < k :=
  Nat.not_lt_of_le hk

/-- Of the refusals the first is for zero and for what is no power of two. -/
theorem two_pow_usable (k : Nat) : ¬ (2 ^ k = 0 ∨ ¬ IsTwoPower (2 ^ k)) := by
  rintro (h | h)
  · exact (Nat.two_pow_pos k).ne' h
  · exact h (isTwoPower_two_pow k)

theorem domainLog2_two_pow {k : Nat} (hk : k ≤ 32) : domainLog2 (2 ^ k) = .ok k := by
  unfold domainLog2
  rw [if_neg (two_pow_usable k), log2Strict_two_pow]
  exact if_neg (not_maxLog2Size_lt hk)

/-- A power of two beyond the two-adicity. -/
theorem domainLog2_of_large {k : Nat} (hk : 32 < k) :
    domainLog2 (2 ^ k) = .error (.domainTooLarge k maxLog2Size) := by
  unfold domainLog2
  rw [if_neg (two_pow_usable k), log2Strict_two_pow]
  exact if_pos hk

/-- A size that is zero or no power of two. -/
theorem domainLog2_of_not_two_pow {n : Nat} (h : ¬ ∃ k, n = 2 ^ k) :
    domainLog2 n = .error (.invalidDomainSize n) :=
  if_pos (Or.inr fun hn => h (isTwoPower_iff.mp hn))

/-- The usable sizes are the powers of two up to the two-adicity. -/
theorem domainLog2_eq_ok_iff {n k : Nat} : domainLog2 n = .ok k ↔ n = 2 ^ k ∧ k ≤ 32 := by
  constructor
  · intro h
    by_cases hn : ∃ j, n = 2 ^ j
    · rcases hn with ⟨j, rfl⟩
      by_cases hj : j ≤ 32
      · rw [domainLog2_two_pow hj] at h
        cases h
        exact ⟨rfl, hj⟩
      · rw [domainLog2_of_large (Nat.lt_of_not_le hj)] at h
        cases h
    · rw [domainLog2_of_not_two_pow hn] at h
      cases h
  · rintro ⟨rfl, hk⟩
    exact domainLog2_two_pow hk

/-- The powers that layer `k` multiplies with: half as many as the root of order
    `2 ^ k` has. -/
noncomputable def twiddles (k : Nat) : Array Element :=
  Array.ofFn fun i : Fin (2 ^ (k - 1)) => unityRoot k ^ i.val

theorem size_twiddles (k : Nat) : (twiddles k).size = 2 ^ (k - 1) :=
  Array.size_ofFn

theorem entry_twiddles {k i : Nat} (h : i < 2 ^ (k - 1)) :
    entry (twiddles k) i = unityRoot k ^ i :=
  entry_ofFn (unityRoot k ^ ·) h

namespace RootTable

theorem buildLayer_eq {k : Nat} (hk : k ≤ 32) : buildLayer k = .ok (twiddles k) := by
  unfold buildLayer
  rw [Element.rootOfUnity_eq hk, Nat.one_shiftLeft]
  show Except.ok ((unityRoot k).powers (2 ^ (k - 1))) = _
  rw [Element.powers_eq]
  rfl

/-- The table for domains of up to `2 ^ m` points. -/
theorem build_eq {m : Nat} (hm : m ≤ 32) :
    build m = .ok ⟨m, ((List.range' 1 m).map twiddles).toArray⟩ := by
  have hlayers : (List.range' 1 m).mapM (fun k => (liftM (buildLayer k) :
      Except TransformError (Array Element))) = .ok ((List.range' 1 m).map twiddles) := by
    refine mapM_eq_pure (fun k hk => ?_)
    rw [List.mem_range'_1] at hk
    rw [buildLayer_eq (by omega)]
    rfl
  unfold build
  rw [if_neg (not_maxLog2Size_lt hm), hlayers]
  rfl

/-- No table is built beyond the largest domain. -/
theorem build_of_large {m : Nat} (hm : 32 < m) :
    build m = .error (.domainTooLarge m maxLog2Size) :=
  if_pos hm

theorem le_of_build_eq_ok {m : Nat} {t : RootTable} (h : build m = .ok t) : m ≤ 32 := by
  by_contra hm
  rw [build_of_large (Nat.lt_of_not_le hm)] at h
  cases h

/-- The table has the twiddles of all layers of a domain of `2 ^ k` points. -/
def Serves (t : RootTable) (k : Nat) : Prop :=
  ∀ l, 1 ≤ l → l ≤ k → t.layer l = .ok (twiddles l)

/-- A table serves every domain that it covers, not only the one that it was
    built for. -/
theorem serves_of_covers {m k : Nat} {t : RootTable} (h : build m = .ok t)
    (hcovers : t.covers k = true) : t.Serves k := by
  -- There is one table of each size, so this is the one that is built.
  rw [build_eq (le_of_build_eq_ok h), Except.ok.injEq] at h
  subst h
  have hk : k ≤ m := of_decide_eq_true hcovers
  intro l hl hlk
  -- Layer `l` stands at index `l - 1`, whatever the size of the table.
  rcases Nat.exists_eq_add_of_le' hl with ⟨i, rfl⟩
  have hlayer : ((List.range' 1 m).map twiddles).toArray[i]? = some (twiddles (i + 1)) := by
    rw [List.getElem?_toArray, List.getElem?_map, List.getElem?_range' (by omega), Nat.one_mul,
      Nat.add_comm]
    rfl
  unfold layer
  simp only [hlayer]

end RootTable

namespace RootCache

/-- The cache holds for each size the table that is built for it, or none. -/
def Faithful (cache : RootCache) : Prop :=
  ∀ k t, cache.tables.lookup k = some t → RootTable.build k = .ok t

theorem faithful_empty : empty.Faithful := by
  intro k t h
  cases h

/-- A request finds its table, or the table is built and kept, or it is refused. -/
theorem request_cases (cache : RootCache) (k : Nat) :
    (∃ t, cache.tables.lookup k = some t ∧ cache.request k = (.ok t, cache)) ∨
    (cache.tables.lookup k = none ∧ ∃ t, RootTable.build k = .ok t ∧
      cache.request k = (.ok t, ⟨(k, t) :: cache.tables⟩)) ∨
    (cache.tables.lookup k = none ∧ ∃ error, RootTable.build k = .error error ∧
      cache.request k = (.error error, cache)) := by
  unfold request
  cases hfound : cache.tables.lookup k with
  | some t => exact Or.inl ⟨t, rfl, rfl⟩
  | none =>
      cases hbuild : RootTable.build k with
      | ok t => exact Or.inr (Or.inl ⟨rfl, t, rfl, rfl⟩)
      | error error => exact Or.inr (Or.inr ⟨rfl, error, rfl, rfl⟩)

/-- What a cache holds once a table has been put in front. -/
theorem lookup_cons_table (k l : Nat) (t : RootTable) (tables : List (Nat × RootTable)) :
    ((k, t) :: tables).lookup l = if l = k then some t else tables.lookup l := by
  rw [List.lookup_cons]
  by_cases hl : l = k
  · rw [hl, beq_self_eq_true, if_pos rfl]
  · rw [beq_false_of_ne hl, if_neg hl]

/-- A cache answers as if it built every table anew, and goes on doing so. -/
theorem request_of_faithful {cache : RootCache} (h : cache.Faithful) (k : Nat) :
    (cache.request k).1 = RootTable.build k ∧ (cache.request k).2.Faithful := by
  rcases cache.request_cases k with ⟨t, hfound, hrequest⟩ | ⟨_, t, hbuild, hrequest⟩ |
    ⟨_, error, hbuild, hrequest⟩
  · rw [hrequest]
    exact ⟨(h k t hfound).symm, h⟩
  · rw [hrequest]
    refine ⟨hbuild.symm, fun l u hlookup => ?_⟩
    rw [lookup_cons_table] at hlookup
    by_cases hl : l = k
    · rw [if_pos hl, Option.some.injEq] at hlookup
      rw [hl, hbuild, hlookup]
    · rw [if_neg hl] at hlookup
      exact h l u hlookup
  · rw [hrequest]
    exact ⟨hbuild.symm, h⟩

end RootCache

/-- Without a table supplied the domain's own is used. -/
theorem chooseTable_none {k : Nat} (hk : k ≤ 32) :
    ∃ t, chooseTable none k = .ok t ∧ t.Serves k := by
  have hbuild := RootTable.build_eq hk
  exact ⟨_, hbuild, RootTable.serves_of_covers hbuild (decide_eq_true (Nat.le_refl k))⟩

/-- A table that is supplied is used if it covers the domain. -/
theorem chooseTable_some {m k : Nat} {t : RootTable} (h : RootTable.build m = .ok t)
    (hcovers : t.covers k = true) : chooseTable (some t) k = .ok t ∧ t.Serves k :=
  ⟨if_pos hcovers, RootTable.serves_of_covers h hcovers⟩

end TraceCommit
