import TraceCommit.Proofs.Transform.Roots

/-!
# Tables That Agree

Any table that covers a domain may be handed to its transform, and the tables that
are handed out come from a cache that earlier requests have filled. Neither makes a
difference. A layer is made of one root alone, whatever the table's size, and the
roots are a tower in which every second power of one is a power of the one below. The
cache files what it has built under the size it was built for and never replaces it,
so behind any requests, refused ones among them, it answers as if it built every
table anew.

## Main definitions

* `RootTable.HoldsPowers`: What stands in a table.
* `RootCache.serve`: A cache under a sequence of requests.

## Theorems

* `getElem?_twiddles_succ`: Every second twiddle is one of the layer below.
* `RootTable.holdsPowers_of_build`: Tables hold the powers of their roots.
* `RootTable.layer_congr`: The layers that two tables share are the same.
* `RootCache.lookup_request`, `RootCache.lookup_serve`: What a request leaves in the
  cache, and what a sequence of them leaves.
* `RootCache.serve_of_faithful`: The answers are those without a cache.
* `shared_tables_agree`: All of it.
-/

namespace TraceCommit

theorem size_twiddles_succ {k : Nat} (hpos : 1 ≤ k) :
    (twiddles (k + 1)).size = 2 * (twiddles k).size := by
  rw [size_twiddles, size_twiddles, Nat.add_sub_cancel, Nat.mul_comm, Nat.two_pow_pred_mul_two hpos]

/-- The root of a layer squared is the root of the layer below, so the even twiddles
    are those of the layer below. -/
theorem getElem?_twiddles_succ {k j : Nat} (hpos : 1 ≤ k) (hk : k + 1 ≤ 32)
    (hj : j < (twiddles k).size) : (twiddles (k + 1))[2 * j]? = (twiddles k)[j]? := by
  have hj' : 2 * j < (twiddles (k + 1)).size := by
    rw [size_twiddles_succ hpos]
    omega
  rw [Array.getElem?_eq_getElem hj', Array.getElem?_eq_getElem hj, ← entry_of_lt hj',
    ← entry_of_lt hj]
  rw [size_twiddles] at hj hj'
  rw [entry_twiddles hj', entry_twiddles hj, pow_mul, unityRoot_succ_sq hk]

namespace RootTable

/-- The table holds the twiddles for domains of up to `2 ^ m` points. -/
structure HoldsPowers (t : RootTable) (m : Nat) : Prop where
  /-- It is marked with its size, -/
  log2Size_eq : t.log2Size = m
  /-- and has as many layers. -/
  size_layers : t.layers.size = m
  /-- A layer holds the powers of its root, half of them and from the zeroth on. -/
  powers : ∀ k, 1 ≤ k → k ≤ m → ∃ root, Element.rootOfUnity k = .ok root ∧
    IsPrimitiveRoot root (2 ^ k) ∧
      t.layer k = .ok (Array.ofFn fun j : Fin (2 ^ (k - 1)) => root ^ j.val)
  /-- Every second entry of a layer is one of the layer below, in the same order. -/
  nested : ∀ k, 1 ≤ k → k < m → ∃ lower upper, t.layer k = .ok lower ∧
    t.layer (k + 1) = .ok upper ∧ upper.size = 2 * lower.size ∧
      ∀ j < lower.size, upper[2 * j]? = lower[j]?

theorem holdsPowers_of_build {m : Nat} {t : RootTable} (h : build m = .ok t) :
    t.HoldsPowers m := by
  have hm := le_of_build_eq_ok h
  have ht : t = ⟨m, ((List.range' 1 m).map twiddles).toArray⟩ :=
    Except.ok.inj (h.symm.trans (build_eq hm))
  have hlog2 : t.log2Size = m := congrArg log2Size ht
  have hserves : t.Serves m := serves_of_covers h (decide_eq_true (Nat.le_of_eq hlog2.symm))
  refine ⟨hlog2, ?_, fun k hpos hk => ?_, fun k hpos hk => ?_⟩
  · rw [ht, List.size_toArray, List.length_map, List.length_range']
  · have hk32 : k ≤ 32 := Nat.le_trans hk hm
    exact ⟨unityRoot k, Element.rootOfUnity_eq hk32, unityRoot_isPrimitiveRoot hk32,
      hserves k hpos hk⟩
  · exact ⟨twiddles k, twiddles (k + 1), hserves k hpos (Nat.le_of_lt hk),
      hserves (k + 1) (Nat.le_add_left 1 k) hk, size_twiddles_succ hpos,
      fun j => getElem?_twiddles_succ hpos (Nat.le_trans hk hm)⟩

/-- A layer does not depend on the table that it is taken from. -/
theorem layer_congr {m n : Nat} {t u : RootTable} (ht : build m = .ok t) (hu : build n = .ok u)
    {k : Nat} (hpos : 1 ≤ k) (hm : k ≤ m) (hn : k ≤ n) : t.layer k = u.layer k := by
  have hcovers {l : Nat} {v : RootTable} (hv : build l = .ok v) (hl : k ≤ l) : v.Serves k :=
    serves_of_covers hv (decide_eq_true ((holdsPowers_of_build hv).log2Size_eq ▸ hl))
  rw [hcovers ht hm k hpos (Nat.le_refl k), hcovers hu hn k hpos (Nat.le_refl k)]

end RootTable

namespace RootCache

/-- The answers to a sequence of requests, and the cache behind the last of them. -/
def serve (cache : RootCache) : List Nat → List (Except TransformError RootTable) × RootCache
  | [] => ([], cache)
  | k :: rest =>
    let (answer, next) := cache.request k
    let (answers, last) := next.serve rest
    (answer :: answers, last)

/-- A request that is refused leaves no trace. -/
theorem request_of_error {cache : RootCache} {k : Nat} {error : TransformError}
    (h : (cache.request k).1 = .error error) : (cache.request k).2 = cache := by
  rcases cache.request_cases k with ⟨t, _, hrequest⟩ | ⟨_, t, _, hrequest⟩ |
    ⟨_, cause, _, hrequest⟩
  · rw [hrequest]
  · rw [hrequest] at h
    cases h
  · rw [hrequest]

/-- A request keeps what the cache holds, and adds the table asked for if there is
    one and the cache did not hold it. -/
theorem lookup_request (cache : RootCache) (k l : Nat) :
    (cache.request k).2.tables.lookup l = (cache.tables.lookup l).or
      (if l = k then (RootTable.build k).toOption else none) := by
  rcases cache.request_cases k with ⟨t, hfound, hrequest⟩ | ⟨hnone, t, hbuild, hrequest⟩ |
    ⟨_, error, hbuild, hrequest⟩
  · rw [hrequest]
    by_cases hl : l = k
    · rw [hl, hfound, Option.some_or]
    · rw [if_neg hl, Option.or_none]
  · rw [hrequest, lookup_cons_table]
    by_cases hl : l = k
    · rw [if_pos hl, if_pos hl, hl, hnone, Option.none_or, hbuild]
      rfl
    · rw [if_neg hl, if_neg hl, Option.or_none]
  · rw [hrequest, hbuild]
    show cache.tables.lookup l = (cache.tables.lookup l).or (if l = k then none else none)
    rw [ite_self, Option.or_none]

variable (cache : RootCache) (sizes : List Nat)

/-- Behind a sequence of requests the cache holds what it held before, and the tables
    of the sizes asked for that have one. -/
theorem lookup_serve (l : Nat) : (cache.serve sizes).2.tables.lookup l =
    (cache.tables.lookup l).or (if l ∈ sizes then (RootTable.build l).toOption else none) := by
  induction sizes generalizing cache with
  | nil => exact Option.or_none.symm
  | cons k rest ih =>
      refine (ih (cache.request k).2).trans ?_
      rw [lookup_request, Option.or_assoc]
      refine congrArg (cache.tables.lookup l).or ?_
      by_cases hl : l = k
      · rw [if_pos hl, if_pos (List.mem_cons.mpr (Or.inl hl)), hl]
        -- Asking for the same size again adds nothing.
        by_cases hrest : k ∈ rest
        · rw [if_pos hrest, Option.or_self]
        · rw [if_neg hrest, Option.or_none]
      · simp only [List.mem_cons, hl, false_or, if_false, Option.none_or]

/-- A cache answers every request of a sequence as if it built the table anew. -/
theorem serve_of_faithful {cache : RootCache} (h : cache.Faithful) :
    (cache.serve sizes).1 = sizes.map RootTable.build := by
  induction sizes generalizing cache with
  | nil => rfl
  | cons k rest ih =>
      rcases request_of_faithful h k with ⟨hanswer, hnext⟩
      exact congrArg₂ List.cons hanswer (ih hnext)

end RootCache

/-- Requests for tables, whatever their sizes and their order, are answered as if every
    table were built anew, and refused as building it is. What has been built is kept
    under its own size, nothing else is, and a refusal changes nothing. There is a table
    for each size up to the two-adicity; it holds the powers of the primitive roots,
    each layer has the layer below as its even entries, and the layers of a smaller table
    are those of a larger one. -/
theorem shared_tables_agree :
    (∀ sizes : List Nat,
      (RootCache.empty.serve sizes).1 = sizes.map RootTable.build ∧
      (∀ k, (RootCache.empty.serve sizes).2.tables.lookup k =
        if k ∈ sizes then (RootTable.build k).toOption else none) ∧
      ∀ k error, ((RootCache.empty.serve sizes).2.request k).1 = .error error →
        ((RootCache.empty.serve sizes).2.request k).2 = (RootCache.empty.serve sizes).2) ∧
    (∀ m, (m ≤ 32 ∧ ∃ t, RootTable.build m = .ok t ∧ t.HoldsPowers m) ∨
      (32 < m ∧ RootTable.build m = .error (.domainTooLarge m 32))) ∧
    ∀ m n t u, m ≤ n → RootTable.build m = .ok t → RootTable.build n = .ok u →
      ∀ k, 1 ≤ k → k ≤ m → t.layer k = u.layer k := by
  refine ⟨fun sizes => ⟨?_, fun k => ?_, fun k error => RootCache.request_of_error⟩,
    fun m => ?_, fun m n t u hmn ht hu k hpos hk => ?_⟩
  · exact RootCache.serve_of_faithful sizes RootCache.faithful_empty
  · exact RootCache.lookup_serve .empty sizes k
  · rcases Nat.lt_or_ge 32 m with hm | hm
    · exact Or.inr ⟨hm, RootTable.build_of_large hm⟩
    · have hbuild := RootTable.build_eq hm
      exact Or.inl ⟨hm, _, hbuild, RootTable.holdsPowers_of_build hbuild⟩
  · exact RootTable.layer_congr ht hu hpos hk (Nat.le_trans hk hmn)

/-- A table for four points, one for too many, one for two, and the first again. -/
theorem shared_tables_agree_four :
    (RootCache.empty.serve [2, 40, 1, 2]).1 =
        [RootTable.build 2, .error (.domainTooLarge 40 32), RootTable.build 1,
          RootTable.build 2] ∧
      ((RootCache.empty.serve [2]).2.request 40).2 = (RootCache.empty.serve [2]).2 ∧
      RootTable.build 2 = .ok ⟨2, #[#[1], #[1, .ofWord 281474976710656]]⟩ ∧
      RootTable.layer ⟨1, #[#[1]]⟩ 1 =
        RootTable.layer ⟨2, #[#[1], #[1, .ofWord 281474976710656]]⟩ 1 := by
  have hrefused : ((RootCache.empty.serve [2]).2.request 40).1 =
      .error (.domainTooLarge 40 32) := by
    decide +kernel
  have hone : RootTable.build 1 = .ok ⟨1, #[#[1]]⟩ := by
    decide +kernel
  have htwo : RootTable.build 2 = .ok ⟨2, #[#[1], #[1, .ofWord 281474976710656]]⟩ := by
    decide +kernel
  rcases shared_tables_agree with ⟨hrequests, _, hlayers⟩
  exact ⟨(hrequests [2, 40, 1, 2]).1, (hrequests [2]).2.2 40 _ hrefused, htwo,
    hlayers 1 2 _ _ (by decide) hone htwo 1 (by decide) (by decide)⟩

end TraceCommit
