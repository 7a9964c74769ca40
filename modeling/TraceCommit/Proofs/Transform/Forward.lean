import TraceCommit.Proofs.Transform.Network

/-!
# What the Forward Transform Computes

A transform that is not refused leaves the values of its inputs' polynomial over
the domain behind, whatever kernels and schedule it runs with and whichever
table it reads its twiddles from. A zero factor `r` makes it leave the values
that belong to the first `2 ^ (k - r)` inputs alone: it never looks at the
others, so they may as well be zero.

## Main definitions

* `EvaluatesAt`: The values are those of a polynomial at the powers of a root.
* `RootTable.Supplied`: A table that may be handed to a transform.

## Theorems

* `fftInPlace_run`, `cosetFftInPlace_run`: The buffer that is left behind.
* `fft_evaluates`: Values over the domain, for plain and for padded inputs.
* `zeroFactor_agrees`: A zero factor does what zeroed inputs do.
-/

namespace TraceCommit

open Finset

namespace OnBuffer

variable {α β : Type} {before after : Array Element} {a : α}

/-- An action that succeeds is followed by the next one. -/
theorem run_bind_of_ok {action : OnBuffer α} {next : α → OnBuffer β}
    (h : action.run before = .ok a after) : (action >>= next).run before = (next a).run after := by
  refine (EStateM.run_bind action next).trans ?_
  rw [h]

theorem run_lift_of_ok {x : Except TransformError α} (h : x = .ok a) :
    (liftM x : OnBuffer α).run before = .ok a before := by
  subst h
  rfl

theorem run_replace_of_ok {f : Array Element → Except TransformError (Array Element)}
    (h : f before = .ok after) : (replace f).run before = .ok () after := by
  simp only [replace, EStateM.run, h]

theorem apply_of_ok {action : OnBuffer Unit} (h : action.run before = .ok () after) :
    action.apply before = .ok after := by
  unfold apply
  rw [h]

end OnBuffer

variable (c : Capability) (s : Schedule) {k r : Nat}

theorem checkZeroFactor_of_le (hr : r ≤ k) : checkZeroFactor r k = .ok () :=
  if_neg (by omega)

/-- Transforms begin with the logarithm of their domain. -/
theorem run_domainLog2_of_ok {values : Array Element} (h : domainLog2 values.size = .ok k)
    (next : Nat → OnBuffer Unit) :
    (do next (← domainLog2 (← get).size) : OnBuffer Unit).run values = (next k).run values := by
  rw [OnBuffer.run_bind_of_ok (EStateM.run_get values),
    OnBuffer.run_bind_of_ok (OnBuffer.run_lift_of_ok h)]

/-- A transform with a table that serves its domain leaves the values behind. -/
theorem fftInPlace_run {values : Array Element} (hk : k ≤ 32) (hsize : values.size = 2 ^ k)
    (zeroFactor : Option Nat) (hr : zeroFactor.getD 0 ≤ k) {supplied : Option RootTable}
    (htable : ∃ t, chooseTable supplied k = .ok t ∧ t.Serves k) :
    (fftInPlace ⟨.of c, s⟩ zeroFactor supplied).run values =
      .ok () (spectrum k (leading (2 ^ (k - zeroFactor.getD 0)) (entry values))) := by
  rcases htable with ⟨t, hchoose, hserves⟩
  have hdomain : domainLog2 values.size = .ok k := by rw [hsize, domainLog2_two_pow hk]
  -- A buffer of a usable size is permuted without a refusal.
  have hreverse : (liftM (reverseIndexBits values) : Except TransformError (Array Element)) =
      .ok (bitReversed k values) := by
    rw [reverseIndexBits_eq (by omega) hsize]
    rfl
  have hmerged := merged_broadcastHeads hsize hr
  have hlayers := butterflyLayers_eq c s hserves hk (k - zeroFactor.getD 0) _
    (Nat.add_sub_of_le hr) _ hmerged
  -- Each step succeeds on what the one before it left in the buffer.
  unfold fftInPlace
  rw [run_domainLog2_of_ok hdomain,
    OnBuffer.run_bind_of_ok (OnBuffer.run_lift_of_ok (checkZeroFactor_of_le hr)),
    OnBuffer.run_bind_of_ok (OnBuffer.run_lift_of_ok hchoose),
    OnBuffer.run_bind_of_ok (OnBuffer.run_replace_of_ok hreverse)]
  by_cases hpos : 0 < zeroFactor.getD 0
  · rw [if_pos hpos, OnBuffer.run_bind_of_ok (EStateM.run_modify _ _)]
    exact OnBuffer.run_replace_of_ok hlayers
  · -- Copying over blocks of one element is left out.
    have hzero : zeroFactor.getD 0 = 0 := by omega
    rw [if_neg hpos]
    rw [hzero, broadcastHeads_zero] at hlayers
    rw [hzero]
    exact OnBuffer.run_replace_of_ok hlayers

/-- A sequence with entry `i` multiplied by `shift ^ i`. -/
noncomputable def scaled (shift : Element) (values : Array Element) : Array Element :=
  values.mapIdx fun i a => a * shift ^ i

theorem size_scaled (shift : Element) (values : Array Element) :
    (scaled shift values).size = values.size :=
  Array.size_mapIdx

theorem entry_scaled (shift : Element) (values : Array Element) (i : Nat) :
    entry (scaled shift values) i = entry values i * shift ^ i := by
  by_cases h : i < values.size
  · unfold scaled
    rw [entry_of_lt (by rwa [Array.size_mapIdx]), Array.getElem_mapIdx, entry_of_lt h]
  · rw [entry_of_le (by rw [size_scaled]; omega), entry_of_le (by omega), zero_mul]

/-- Scaling succeeds with every shift. The shift one is not multiplied with, but
    its powers are all one. -/
theorem scaleByPowers_eq (shift : Element) (values : Array Element) :
    scaleByPowers (.of c) shift values = .ok (scaled shift values) := by
  unfold scaleByPowers
  by_cases hone : shift = 1
  · rw [if_pos hone, Except.ok.injEq]
    refine ext_entry (size_scaled shift values).symm (fun i _ => ?_)
    rw [entry_scaled, hone, one_pow, mul_one]
  · have hpowers : (shift.powers values.size).size = values.size := by
      rw [Element.powers_eq, Array.size_ofFn]
    rw [if_neg hone, Kernels.of_eq]
    show (do
      requireSameLength .mulAssign values.size (shift.powers values.size).size
      return Array.zipWith (· * ·) values (shift.powers values.size)) = _
    unfold requireSameLength
    rw [if_pos hpowers.symm]
    show Except.ok _ = _
    rw [Except.ok.injEq]
    refine ext_entry ?_ (fun i hi => ?_)
    · rw [Array.size_zipWith, hpowers, size_scaled, Nat.min_self]
    · rw [Array.size_zipWith, hpowers, Nat.min_self] at hi
      rw [entry_zipWith hi (by omega), entry_scaled, Element.powers_eq,
        entry_ofFn (shift ^ ·) hi]

/-- Where only the first entries are scaled, the others stay behind them. -/
theorem exists_scaleHead {values : Array Element} {count : Nat} (shift : Element)
    (hcount : count ≤ values.size) :
    ∃ result, scaleHead (.of c) shift count values = .ok result ∧ result.size = values.size ∧
      ∀ i < count, entry result i = entry values i * shift ^ i := by
  have hsize : (scaled shift (values.extract 0 count)).size = count := by
    rw [size_scaled, Array.size_extract]
    omega
  refine ⟨scaled shift (values.extract 0 count) ++ values.extract count, ?_, ?_, fun i hi => ?_⟩
  · unfold scaleHead
    simp only [splitAt_of_le hcount, ok_bind, scaleByPowers_eq]
    rfl
  · rw [Array.size_append, hsize, Array.size_extract]
    omega
  · rw [entry_append_left (by omega), entry_scaled, entry_extract (by omega), Nat.zero_add]

/-- A transform over a coset leaves the values of the scaled inputs behind. -/
theorem cosetFftInPlace_run {values : Array Element} (hk : k ≤ 32) (hsize : values.size = 2 ^ k)
    (shift : Element) (zeroFactor : Option Nat) (hr : zeroFactor.getD 0 ≤ k) :
    (cosetFftInPlace ⟨.of c, s⟩ shift zeroFactor).run values =
      .ok () (spectrum k
        (leading (2 ^ (k - zeroFactor.getD 0)) fun i => entry values i * shift ^ i)) := by
  have hdomain : domainLog2 values.size = .ok k := by rw [hsize, domainLog2_two_pow hk]
  -- As many entries are scaled as the transform will look at.
  have hhead : values.size >>> zeroFactor.getD 0 = 2 ^ (k - zeroFactor.getD 0) := by
    rw [hsize, Nat.shiftRight_eq_div_pow, Nat.pow_div hr Nat.two_pos]
  have hle : values.size >>> zeroFactor.getD 0 ≤ values.size := by
    rw [Nat.shiftRight_eq_div_pow]
    exact Nat.div_le_self _ _
  rcases exists_scaleHead c shift hle with ⟨result, hscale, hresult, hentries⟩
  have hlifted : (liftM (scaleHead (.of c) shift (values.size >>> zeroFactor.getD 0) values) :
      Except TransformError (Array Element)) = .ok result := by
    rw [hscale]
    rfl
  have htransform := fftInPlace_run c s hk (hresult.trans hsize) zeroFactor hr (chooseTable_none hk)
  -- The entries that are not scaled do not count either.
  have hcongr : spectrum k (leading (2 ^ (k - zeroFactor.getD 0)) (entry result)) =
      spectrum k (leading (2 ^ (k - zeroFactor.getD 0)) fun i => entry values i * shift ^ i) := by
    refine spectrum_congr (fun t _ => ?_)
    unfold leading
    by_cases ht : t < 2 ^ (k - zeroFactor.getD 0)
    · rw [if_pos ht, if_pos ht, hentries t (by rwa [hhead])]
    · rw [if_neg ht, if_neg ht]
  unfold cosetFftInPlace
  rw [run_domainLog2_of_ok hdomain,
    OnBuffer.run_bind_of_ok (OnBuffer.run_lift_of_ok (checkZeroFactor_of_le hr)),
    OnBuffer.run_bind_of_ok (OnBuffer.run_replace_of_ok hlifted), htransform, hcongr]

/-- All inputs count if there are no more than `2 ^ k`. -/
theorem spectrum_leading (k : Nat) (x : Nat → Element) :
    spectrum k (leading (2 ^ k) x) = spectrum k x :=
  spectrum_congr (fun _ ht => if_pos ht)

/-- The values are those of the polynomial with the given coefficients at the
    first `n` powers of `ω`. -/
def EvaluatesAt (ω : Element) (n : Nat) (coefficients values : Array Element) : Prop :=
  values.size = n ∧
    ∀ i (h : i < values.size), values[i] = (Polynomial.mk coefficients).eval (ω ^ i)

theorem evaluatesAt_spectrum {coefficients : Array Element} (h : coefficients.size ≤ 2 ^ k) :
    EvaluatesAt (unityRoot k) (2 ^ k) coefficients (spectrum k (entry coefficients)) := by
  refine ⟨size_spectrum k _, fun i hi => ?_⟩
  rw [← entry_of_lt hi, entry_spectrum _ (by rwa [size_spectrum] at hi),
    Polynomial.eval_eq_sum h]
  rfl

/-- A table that may be handed to a transform of `2 ^ k` points: one that has
    been built, for a domain at least as large. -/
def RootTable.Supplied (t : RootTable) (k : Nat) : Prop :=
  t.covers k = true ∧ ∃ m, RootTable.build m = .ok t

theorem chooseTable_supplied (hk : k ≤ 32) {table : Option RootTable}
    (h : ∀ t ∈ table, t.Supplied k) : ∃ t, chooseTable table k = .ok t ∧ t.Serves k := by
  cases table with
  | none => exact chooseTable_none hk
  | some t =>
      rcases h t rfl with ⟨hcovers, m, hbuild⟩
      exact ⟨t, chooseTable_some hbuild hcovers⟩

/-- Without a zero factor the transform leaves all values behind. -/
theorem fftInPlace_none_run {values : Array Element} (hk : k ≤ 32) (hsize : values.size = 2 ^ k)
    {table : Option RootTable} (htable : ∀ t ∈ table, t.Supplied k) :
    (fftInPlace ⟨.of c, s⟩ none table).run values = .ok () (spectrum k (entry values)) := by
  have hzero : (none : Option Nat).getD 0 ≤ k := Nat.zero_le k
  have hall : k - (none : Option Nat).getD 0 = k := Nat.sub_zero k
  rw [fftInPlace_run c s hk hsize none hzero (chooseTable_supplied hk htable), hall,
    spectrum_leading]

theorem cosetFftInPlace_none_run {values : Array Element} (hk : k ≤ 32)
    (hsize : values.size = 2 ^ k) (shift : Element) :
    (cosetFftInPlace ⟨.of c, s⟩ shift none).run values =
      .ok () (spectrum k fun i => entry values i * shift ^ i) := by
  have hzero : (none : Option Nat).getD 0 ≤ k := Nat.zero_le k
  have hall : k - (none : Option Nat).getD 0 = k := Nat.sub_zero k
  rw [cosetFftInPlace_run c s hk hsize shift none hzero, hall, spectrum_leading]

theorem fftPadded_eq {coefficients : Array Element} (hk : k ≤ 32)
    (hsize : coefficients.size ≤ 2 ^ k) :
    fftPadded ⟨.of c, s⟩ coefficients (2 ^ k) = .ok (spectrum k (entry coefficients)) := by
  have hrun := fftInPlace_none_run c s hk (size_padZeros hsize)
    (fun t ht => absurd ht (Option.not_mem_none t))
  have hentries : entry (padZeros (2 ^ k) coefficients) = entry coefficients :=
    funext (entry_padZeros (2 ^ k) coefficients)
  rw [hentries] at hrun
  have hroom : ¬ 2 ^ k < coefficients.size := by omega
  unfold fftPadded
  rw [domainLog2_two_pow hk, if_neg hroom]
  exact OnBuffer.apply_of_ok hrun

/-- The transform evaluates: it succeeds and leaves the values at the powers of
    the primitive root behind, with its own table or any other that is large
    enough, and coefficients that are padded first give the values of the
    polynomial as it was before. -/
theorem fft_evaluates (hk : k ≤ 32) :
    ∃ ω, Element.rootOfUnity k = .ok ω ∧
      (∀ (coefficients : Array Element) (table : Option RootTable),
        coefficients.size = 2 ^ k → (∀ t ∈ table, t.Supplied k) →
          ∃ values, (fftInPlace ⟨.of c, s⟩ none table).run coefficients = .ok () values ∧
            EvaluatesAt ω (2 ^ k) coefficients values) ∧
      (∀ coefficients : Array Element, coefficients.size ≤ 2 ^ k →
        ∃ values, fftPadded ⟨.of c, s⟩ coefficients (2 ^ k) = .ok values ∧
          EvaluatesAt ω (2 ^ k) coefficients values) := by
  refine ⟨unityRoot k, Element.rootOfUnity_eq hk, ?_, ?_⟩
  · intro coefficients table hsize htable
    exact ⟨_, fftInPlace_none_run c s hk hsize htable, evaluatesAt_spectrum (Nat.le_of_eq hsize)⟩
  · intro coefficients hsize
    exact ⟨_, fftPadded_eq c s hk hsize, evaluatesAt_spectrum hsize⟩

/-- Four coefficients with the table of eight, and one coefficient padded. -/
theorem fft_evaluates_four : ∃ ω t values padded,
    Element.rootOfUnity 2 = .ok ω ∧ RootTable.build 3 = .ok t ∧
      (fftInPlace ⟨.of .avx2, .backward 3⟩ none (some t)).run #[1, 0, Element.two, 1] =
        .ok () values ∧
      EvaluatesAt ω 4 #[1, 0, Element.two, 1] values ∧
      fftPadded ⟨.of .avx2, .backward 3⟩ #[Element.two] 4 = .ok padded ∧
      EvaluatesAt ω 4 #[Element.two] padded := by
  have hbuild := RootTable.build_eq (by decide : 3 ≤ 32)
  rcases fft_evaluates .avx2 (.backward 3) (by decide : 2 ≤ 32) with ⟨ω, hω, hplain, hpadded⟩
  rcases hplain #[1, 0, Element.two, 1] (some _) rfl
    (fun t ht => by
      cases ht
      exact ⟨rfl, 3, hbuild⟩) with ⟨values, hrun, hvalues⟩
  rcases hpadded #[Element.two] (by decide) with ⟨padded, hpad, hpaddedValues⟩
  exact ⟨ω, _, values, padded, hω, hbuild, hrun, hvalues, hpad, hpaddedValues⟩

/-- The sequence with zeros from index `n` on. -/
def zeroedFrom (n : Nat) (values : Array Element) : Array Element :=
  values.mapIdx fun i a => if i < n then a else 0

theorem entry_zeroedFrom (n : Nat) (values : Array Element) (i : Nat) :
    entry (zeroedFrom n values) i = leading n (entry values) i := by
  unfold zeroedFrom leading
  by_cases h : i < values.size
  · rw [entry_of_lt (by rwa [Array.size_mapIdx]), Array.getElem_mapIdx, entry_of_lt h]
  · rw [entry_of_le (by rw [Array.size_mapIdx]; omega), entry_of_le (by omega)]
    split
    · rfl
    · rfl

theorem size_zeroedFrom (n : Nat) (values : Array Element) :
    (zeroedFrom n values).size = values.size :=
  Array.size_mapIdx

/-- Zeroing what is zero changes nothing. -/
theorem zeroedFrom_eq_self {n : Nat} {values : Array Element}
    (h : ∀ i (hi : i < values.size), n ≤ i → values[i] = 0) : zeroedFrom n values = values := by
  refine ext_entry (size_zeroedFrom n values) (fun i hi => ?_)
  rw [size_zeroedFrom] at hi
  rw [entry_zeroedFrom]
  unfold leading
  split
  · rfl
  · rename_i hbehind
    rw [entry_of_lt hi, h i hi (by omega)]

theorem fftInPlace_zeroedFrom_run {values : Array Element} (hk : k ≤ 32)
    (hsize : values.size = 2 ^ k) {table : Option RootTable} (htable : ∀ t ∈ table, t.Supplied k)
    (n : Nat) : (fftInPlace ⟨.of c, s⟩ none table).run (zeroedFrom n values) =
      .ok () (spectrum k (leading n (entry values))) := by
  have hentries : entry (zeroedFrom n values) = leading n (entry values) :=
    funext (entry_zeroedFrom n values)
  rw [fftInPlace_none_run c s hk ((size_zeroedFrom n values).trans hsize) htable, hentries]

theorem cosetFftInPlace_zeroedFrom_run {values : Array Element} (hk : k ≤ 32)
    (hsize : values.size = 2 ^ k) (shift : Element) (n : Nat) :
    (cosetFftInPlace ⟨.of c, s⟩ shift none).run (zeroedFrom n values) =
      .ok () (spectrum k (leading n fun i => entry values i * shift ^ i)) := by
  have hentries : (fun i => entry (zeroedFrom n values) i * shift ^ i) =
      leading n fun i => entry values i * shift ^ i := by
    funext i
    rw [entry_zeroedFrom]
    unfold leading
    split
    · rfl
    · rw [zero_mul]
  rw [cosetFftInPlace_none_run c s hk ((size_zeroedFrom n values).trans hsize), hentries]

/-- A zero factor does what zeroed inputs do, in the plain transform as over a
    coset, whatever stood in the places that it does not look at. Where it
    promised the truth the inputs need not be zeroed. -/
theorem zeroFactor_agrees (c c' : Capability) (s s' : Schedule) (hk : k ≤ 32) (hr : r ≤ k)
    (values : Array Element) (hsize : values.size = 2 ^ k) (shift : Element)
    (table table' : Option RootTable) (htable : ∀ t ∈ table, t.Supplied k)
    (htable' : ∀ t ∈ table', t.Supplied k) :
    ∃ plain coset,
      (fftInPlace ⟨.of c, s⟩ (some r) table).run values = .ok () plain ∧
      (fftInPlace ⟨.of c', s'⟩ none table').run (zeroedFrom (2 ^ (k - r)) values) =
        .ok () plain ∧
      (cosetFftInPlace ⟨.of c, s⟩ shift (some r)).run values = .ok () coset ∧
      (cosetFftInPlace ⟨.of c', s'⟩ shift none).run (zeroedFrom (2 ^ (k - r)) values) =
        .ok () coset ∧
      ((∀ i (h : i < values.size), 2 ^ (k - r) ≤ i → values[i] = 0) →
        (fftInPlace ⟨.of c', s'⟩ none table').run values = .ok () plain ∧
        (cosetFftInPlace ⟨.of c', s'⟩ shift none).run values = .ok () coset) := by
  have hplain := fftInPlace_run c s hk hsize (some r) hr (chooseTable_supplied hk htable)
  have hcoset := cosetFftInPlace_run c s hk hsize shift (some r) hr
  have hplain' := fftInPlace_zeroedFrom_run c' s' hk hsize htable' (2 ^ (k - r))
  have hcoset' := cosetFftInPlace_zeroedFrom_run c' s' hk hsize shift (2 ^ (k - r))
  refine ⟨_, _, hplain, hplain', hcoset, hcoset', fun hpromise => ?_⟩
  have hself := zeroedFrom_eq_self (fun i hi hle => hpromise i hi hle)
  rw [hself] at hplain' hcoset'
  exact ⟨hplain', hcoset'⟩

/-- Four inputs of which the last two, zero or not, are left out. -/
theorem zeroFactor_agrees_four : ∃ t plain coset, RootTable.build 3 = .ok t ∧
    (fftInPlace ⟨.of .avx512, .backward 2⟩ (some 1) (some t)).run #[1, Element.two, 1, 0] =
      .ok () plain ∧
    (fftInPlace ⟨.of .scalar, .sequential⟩ none (some t)).run
      (zeroedFrom 2 #[1, Element.two, 1, 0]) = .ok () plain ∧
    (cosetFftInPlace ⟨.of .avx512, .backward 2⟩ 0 (some 1)).run #[1, Element.two, 1, 0] =
      .ok () coset ∧
    (cosetFftInPlace ⟨.of .scalar, .sequential⟩ 0 none).run
      (zeroedFrom 2 #[1, Element.two, 1, 0]) = .ok () coset := by
  have hbuild := RootTable.build_eq (by decide : 3 ≤ 32)
  rcases zeroFactor_agrees .avx512 .scalar (.backward 2) .sequential (by decide : 2 ≤ 32)
    (by decide : 1 ≤ 2) #[1, Element.two, 1, 0] rfl 0 (some _) (some _)
    (fun t ht => by
      cases ht
      exact ⟨rfl, 3, hbuild⟩)
    (fun t ht => by
      cases ht
      exact ⟨rfl, 3, hbuild⟩) with ⟨plain, coset, hplain, hplain', hcoset, hcoset', _⟩
  exact ⟨_, plain, coset, hbuild, hplain, hplain', hcoset, hcoset'⟩

end TraceCommit
