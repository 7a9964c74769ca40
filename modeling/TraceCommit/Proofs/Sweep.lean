import TraceCommit.Proofs.Config.Validation
import TraceCommit.Proofs.Field.Sampling
import TraceCommit.Proofs.Transform.Extension
import TraceCommit.Proofs.Yields
import TraceCommit.Sweep.Generator
import TraceCommit.Sweep.Samples

/-!
# Sweeps Complete

A sweep goes through the sizes of a configuration, and for each through its rates,
and times the extensions that have one of the extended sizes. Validation bounds
the largest size and the highest rate together, so the field has room for all of
them, those included that are left out for their size. Apart from the times, what
is reported depends on the configuration alone, not on the seed, the kernels, the
schedule or the clock. Only whether there is an end to it depends on the source of
the coefficients, which must come to one canonical word for each of them.

Three ranges decide what is timed. `Swept` says of a list that it is that: it holds
a size and a rate exactly if they are in range and so is their sum, and in ascending
order. `RunConfig.swept` makes the list, and no other one is like it.

## Main definitions

* `SweepSizes`: The sizes of one extension.
* `Swept`: The extensions that a sweep is to time.
* `RunConfig.swept`: Those of a configuration, one by one.
* `RunConfig.coefficientCount`: How many coefficients are drawn.
* `SweptSoFar`: What holds between the polynomials of a sweep.

## Theorems

* `InclusiveRange.mem_numbers_iff`, `InclusiveRange.numbers_ascending`: The numbers
  of a range.
* `RunConfig.swept_swept`, `Swept.unique`: The extensions are known from the ranges.
* `sweepRate_yields`, `sweepDegree_yields`, `sweepDegree_step`: What the steps of a
  sweep add.
* `sweep_completes`: A sweep of a valid configuration times exactly these.
-/

namespace TraceCommit

namespace InclusiveRange

/-- The number lies between the two ends. -/
def Holds (range : InclusiveRange) (n : Nat) : Prop := range.min.toNat ≤ n ∧ n ≤ range.max.toNat

variable {range : InclusiveRange} {n : UInt64}

theorem contains_iff : range.contains n = true ↔ range.Holds n.toNat := by
  rw [contains, Bool.and_eq_true, decide_eq_true_iff, decide_eq_true_iff,
    UInt64.le_iff_toNat_le, UInt64.le_iff_toNat_le, Holds]

theorem numbers_eq (range : InclusiveRange) :
    range.numbers = (List.range' range.min.toNat range.size).map UInt64.ofNat :=
  congrArg (fun count => (List.range' range.min.toNat count).map UInt64.ofNat)
    (Nat.min_self range.size)

theorem mem_range'_iff {k : Nat} : k ∈ List.range' range.min.toNat range.size ↔ range.Holds k := by
  rw [List.mem_range'_1, size, Holds]
  omega

theorem toNat_ofNat_of_holds {k : Nat} (h : range.Holds k) : (UInt64.ofNat k).toNat = k :=
  UInt64.toNat_ofNat_of_lt' (Nat.lt_of_le_of_lt h.2 range.max.toNat_lt)

/-- A range goes through what it contains. -/
theorem mem_numbers_iff : n ∈ range.numbers ↔ range.Holds n.toNat := by
  rw [numbers_eq, List.mem_map]
  constructor
  · rintro ⟨k, hk, rfl⟩
    rw [mem_range'_iff] at hk
    rwa [toNat_ofNat_of_holds hk]
  · intro h
    exact ⟨n.toNat, mem_range'_iff.mpr h, UInt64.ofNat_toNat⟩

/-- A range goes through its numbers upwards. -/
theorem numbers_ascending (range : InclusiveRange) : range.numbers.Pairwise (· < ·) := by
  rw [numbers_eq, List.pairwise_map]
  refine List.Pairwise.imp_of_mem (fun ha hb hlt => ?_) (List.pairwise_lt_range' 1)
  rw [mem_range'_iff] at ha hb
  rwa [UInt64.lt_iff_toNat_lt, toNat_ofNat_of_holds ha, toNat_ofNat_of_holds hb]

end InclusiveRange

/-- The sizes of an extension, as logarithms. -/
structure SweepSizes where
  /-- That of the polynomial. -/
  degreeLog2 : UInt64
  /-- The rate. -/
  rateBits : UInt64
  /-- That of the extension. -/
  extendedLog2 : UInt64
deriving DecidableEq

/-- The sizes of a sample. -/
def SweepSample.sizes (sample : SweepSample) : SweepSizes :=
  ⟨sample.degreeLog2, sample.rateBits, sample.extendedLog2⟩

/-- The one polynomial is smaller, or it is of the same size and the rate is lower. -/
def SweepSizes.Before (a b : SweepSizes) : Prop :=
  a.degreeLog2 < b.degreeLog2 ∨ (a.degreeLog2 = b.degreeLog2 ∧ a.rateBits < b.rateBits)

theorem SweepSizes.Before.not_before {a b : SweepSizes} (h : a.Before b) : ¬ b.Before a := by
  rintro (hlt | ⟨heq, hlt⟩)
  · rcases h with h | ⟨h, -⟩
    · exact UInt64.lt_asymm h hlt
    · exact UInt64.ne_of_lt hlt h.symm
  · rcases h with h | ⟨-, h⟩
    · exact UInt64.ne_of_lt h heq.symm
    · exact UInt64.lt_asymm h hlt

theorem SweepSizes.Before.ne {a b : SweepSizes} (h : a.Before b) : a ≠ b := by
  rintro rfl
  exact h.not_before h

/-- The list consists of the sizes and rates of a configuration whose sum it asks for,
    each of them once, ordered by size and then by rate. -/
structure Swept (config : RunConfig) (sizes : List SweepSizes) : Prop where
  mem_iff : ∀ a, a ∈ sizes ↔ config.degreeLog2.Holds a.degreeLog2.toNat ∧
    config.rateBits.Holds a.rateBits.toNat ∧
    a.extendedLog2.toNat = a.degreeLog2.toNat + a.rateBits.toNat ∧
    config.extendedLog2.Holds a.extendedLog2.toNat
  nodup : sizes.Nodup
  ordered : sizes.Pairwise SweepSizes.Before

/-- No other list has these members in that order. -/
theorem Swept.unique {config : RunConfig} {sizes sizes' : List SweepSizes}
    (h : Swept config sizes) (h' : Swept config sizes') : sizes = sizes' := by
  have hmem : ∀ a, a ∈ sizes ↔ a ∈ sizes' := fun a => (h.mem_iff a).trans (h'.mem_iff a).symm
  refine List.Perm.eq_of_pairwise (fun a b _ _ hab hba => ?_) h.ordered h'.ordered
    ((List.perm_ext_iff_of_nodup h.nodup h'.nodup).mpr hmem)
  exact absurd hba hab.not_before

/-- The sizes of an extension, if it is asked for. -/
def sweptAt (extended : InclusiveRange) (d r : UInt64) : Option SweepSizes :=
  if extended.contains (d + r) then some ⟨d, r, d + r⟩ else none

theorem sweptAt_eq_some_iff {extended : InclusiveRange} {d r : UInt64} {a : SweepSizes} :
    sweptAt extended d r = some a ↔ a = ⟨d, r, d + r⟩ ∧ extended.contains (d + r) = true := by
  unfold sweptAt
  split
  · rename_i hasked
    rw [Option.some.injEq, eq_comm, and_iff_left hasked]
  · rename_i hasked
    exact iff_of_false (Option.some_ne_none a).symm (fun h => hasked h.2)

namespace RunConfig

/-- The sizes of the extensions of one polynomial. -/
def sweptOf (config : RunConfig) (d : UInt64) : List SweepSizes :=
  config.rateBits.numbers.filterMap (sweptAt config.extendedLog2 d)

/-- The sizes of all extensions that are asked for. -/
def swept (config : RunConfig) : List SweepSizes :=
  config.degreeLog2.numbers.flatMap config.sweptOf

variable {config : RunConfig} {d r : UInt64} {a : SweepSizes}

theorem mem_sweptOf_iff : a ∈ config.sweptOf d ↔ ∃ r ∈ config.rateBits.numbers,
    a = ⟨d, r, d + r⟩ ∧ config.extendedLog2.contains (d + r) = true := by
  rw [sweptOf, List.mem_filterMap]
  simp only [sweptAt_eq_some_iff]

theorem mem_swept_iff : a ∈ config.swept ↔ a.degreeLog2 ∈ config.degreeLog2.numbers ∧
    a.rateBits ∈ config.rateBits.numbers ∧ a.extendedLog2 = a.degreeLog2 + a.rateBits ∧
    config.extendedLog2.contains a.extendedLog2 = true := by
  rw [swept, List.mem_flatMap]
  constructor
  · rintro ⟨d, hd, hmem⟩
    rcases mem_sweptOf_iff.mp hmem with ⟨r, hr, rfl, hasked⟩
    exact ⟨hd, hr, rfl, hasked⟩
  · rintro ⟨hd, hr, hsum, hasked⟩
    rw [hsum] at hasked
    exact ⟨a.degreeLog2, hd, mem_sweptOf_iff.mpr ⟨a.rateBits, hr, by rw [← hsum], hasked⟩⟩

theorem sweptOf_ordered (config : RunConfig) (d : UInt64) :
    (config.sweptOf d).Pairwise SweepSizes.Before := by
  rw [sweptOf, List.pairwise_filterMap]
  -- The polynomial stays the same, and the rates go upwards.
  refine (InclusiveRange.numbers_ascending _).imp (fun hlt a ha b hb => ?_)
  rw [(sweptAt_eq_some_iff.mp ha).1, (sweptAt_eq_some_iff.mp hb).1]
  exact Or.inr ⟨rfl, hlt⟩

theorem swept_ordered (config : RunConfig) : config.swept.Pairwise SweepSizes.Before := by
  rw [swept, List.pairwise_flatMap]
  refine ⟨fun d _ => sweptOf_ordered config d, ?_⟩
  -- Whatever their rates, extensions of different polynomials are ordered by these.
  refine (InclusiveRange.numbers_ascending _).imp (fun hlt a ha b hb => Or.inl ?_)
  rcases mem_sweptOf_iff.mp ha with ⟨_, _, rfl, _⟩
  rcases mem_sweptOf_iff.mp hb with ⟨_, _, rfl, _⟩
  exact hlt

/-- The field has room for every polynomial at every rate. -/
theorem Usable.add_le (h : config.Usable) {n k : Nat} (hn : config.degreeLog2.Holds n)
    (hk : config.rateBits.Holds k) : n + k ≤ 32 :=
  (Nat.add_le_add hn.2 hk.2).trans h.degree_le

theorem Usable.le (h : config.Usable) {n : Nat} (hn : config.degreeLog2.Holds n) : n ≤ 32 :=
  (hn.2.trans (Nat.le_add_right _ _)).trans h.degree_le

end RunConfig

theorem toNat_add_of_room {d r : UInt64} (h : d.toNat + r.toNat ≤ 32) :
    (d + r).toNat = d.toNat + r.toNat := by
  rw [UInt64.toNat_add]
  omega

/-- The extensions of a usable configuration are those that its ranges ask for. -/
theorem RunConfig.swept_swept {config : RunConfig} (h : config.Usable) :
    Swept config config.swept := by
  refine ⟨fun a => ?_, config.swept_ordered.imp SweepSizes.Before.ne, config.swept_ordered⟩
  rw [mem_swept_iff, InclusiveRange.contains_iff, InclusiveRange.mem_numbers_iff,
    InclusiveRange.mem_numbers_iff]
  -- Below the bound on the sum there is no difference between words and numbers.
  refine and_congr_right (fun hd => and_congr_right (fun hr => and_congr_left (fun _ => ?_)))
  rw [← toNat_add_of_room (h.add_le hd hr), UInt64.toNat_inj]

/-- The number of coefficients of polynomials of these sizes. -/
def coefficientCount (degrees : List UInt64) : Nat := (degrees.map fun d => 2 ^ d.toNat).sum

theorem coefficientCount_append (done rest : List UInt64) :
    coefficientCount (done ++ rest) = coefficientCount done + coefficientCount rest := by
  rw [coefficientCount, List.map_append, List.sum_append]
  rfl

/-- The number of coefficients that a sweep draws. -/
def RunConfig.coefficientCount (config : RunConfig) : Nat :=
  TraceCommit.coefficientCount config.degreeLog2.numbers

/-- What holds between the polynomials of a sweep: the coefficients of those that are
    done have been drawn, and their samples taken, or the draws have no end. -/
structure SweptSoFar {σ : Type} (config : RunConfig) (source : WordSource σ) (start : σ)
    (done : List UInt64) (ended : Option (List SweepSample × σ)) : Prop where
  uses : source.Uses (coefficientCount done) start ended
  sizes : ∀ samples state, ended = some (samples, state) →
    samples.map SweepSample.sizes = done.flatMap config.sweptOf

/-- Without an end, it does not matter which polynomials are left. -/
theorem SweptSoFar.of_none {σ : Type} {config : RunConfig} {source : WordSource σ} {start : σ}
    (rest : List UInt64) {done : List UInt64} (h : SweptSoFar config source start done none) :
    SweptSoFar config source start (done ++ rest) none := by
  refine ⟨?_, fun samples state h => absurd h (Option.some_ne_none _).symm⟩
  rw [coefficientCount_append]
  exact h.uses.of_none

section Steps

variable (c : Capability) (s : Schedule) {m : Type → Type} [Monad m] [LawfulMonad m]
  {w : Stopwatch m} (hw : w.Faithful) {config : RunConfig} {d r : UInt64} {σ : Type}

theorem requireValues_eq_ok {values : Array Element} {x : UInt64} (hx : x.toNat < 64)
    (hsize : values.size = 2 ^ x.toNat) : requireValues values x = .ok () := by
  rcases Checked.exists_shiftLeft_one hx with ⟨points, hshift, hpoints⟩
  unfold requireValues
  rw [hshift, ok_bind, hpoints, if_neg (not_not_intro hsize)]
  rfl

include hw

/-- An extension that there is room for is timed exactly if it is asked for. -/
theorem sweepRate_yields (extended : InclusiveRange) {coefficients : Array Element}
    (hsize : coefficients.size = 2 ^ d.toNat) (hroom : d.toNat + r.toNat ≤ 32) :
    Yields (sweepRate ⟨.of c, s⟩ w extended coefficients d r) fun sample =>
      sample.map SweepSample.sizes = sweptAt extended d r := by
  have hsum := toNat_add_of_room hroom
  -- The extension has as many values as its logarithm says.
  have hvalues : requireValues (extension (d.toNat + r.toNat) coefficients) (d + r) = .ok () := by
    refine requireValues_eq_ok (by omega) ?_
    rw [size_extension, hsum]
  unfold sweepRate sweptAt
  refine .attempt_bind (Checked.add_eq_ok_iff.mpr hsum) ?_
  split
  · refine .lift_bind (fun start => .carryOut_bind hw (lde_eq c s hsize hroom) ?_)
    refine .lift_bind (fun stop => .attempt_bind rfl (.attempt_bind hvalues ?_))
    exact .pure rfl
  · exact .pure rfl

/-- A polynomial that there is room for is drawn and extended at all rates. -/
theorem sweepDegree_yields (source : WordSource σ) (hd : d.toNat ≤ 32)
    (hroom : ∀ r ∈ config.rateBits.numbers, d.toNat + r.toNat ≤ 32)
    (samples : List SweepSample) (state : σ) :
    Yields (sweepDegree ⟨.of c, s⟩ w source config (samples, state) d).run fun ended =>
      source.Uses (2 ^ d.toNat) state ended ∧ ∀ samples' state', ended = some (samples', state') →
        samples'.map SweepSample.sizes = samples.map SweepSample.sizes ++ config.sweptOf d := by
  rcases Checked.exists_shiftLeft_one (by omega : d.toNat < 64) with ⟨count, hshift, hcount⟩
  have hbytes : Element.byteCount * count.toNat ≤ maxSequenceBytes := by
    rw [hcount]
    exact (Nat.mul_le_mul_left _ (Nat.pow_le_pow_right Nat.two_pos hd)).trans (by decide)
  rcases source.exists_elements state hbytes with ⟨drawn, hdrawn, huses, hsize⟩
  rw [hcount] at huses hsize
  unfold sweepDegree
  refine .option_lift_bind (.attempt_bind hshift ?_)
  refine .option_lift_bind (.attempt_bind hdrawn ?_)
  refine .option_bind (.pure (Eq.refl drawn)) ?_ ?_
  · rintro rfl
    exact ⟨huses, fun samples' state' h => absurd h (Option.some_ne_none _).symm⟩
  · rintro ⟨coefficients, state'⟩ rfl
    -- All rates extend the polynomial that has been drawn.
    have hrates := Yields.filterMapM fun r hr =>
      sweepRate_yields c s hw config.extendedLog2 (hsize coefficients state' rfl) (hroom r hr)
    refine .option_lift_bind (hrates.bind fun added hadded => .pure ⟨huses, ?_⟩)
    rintro samples' state'' ⟨⟩
    rw [List.map_append, hadded]
    rfl

/-- One more polynomial leaves the samples of one polynomial more. -/
theorem sweepDegree_step {source : WordSource σ} {start state : σ} (h : config.Usable)
    (hd : d ∈ config.degreeLog2.numbers) {done : List UInt64} {samples : List SweepSample}
    (hstate : SweptSoFar config source start done (some (samples, state))) :
    Yields (sweepDegree ⟨.of c, s⟩ w source config (samples, state) d).run
      (SweptSoFar config source start (done ++ [d])) := by
  rw [InclusiveRange.mem_numbers_iff] at hd
  have hroom : ∀ r ∈ config.rateBits.numbers, d.toNat + r.toNat ≤ 32 :=
    fun r hr => h.add_le hd (InclusiveRange.mem_numbers_iff.mp hr)
  refine (sweepDegree_yields c s hw source (h.le hd) hroom samples state).mono ?_
  rintro ended ⟨huses, hsizes⟩
  refine ⟨?_, fun samples' state' hended => ?_⟩
  · rw [coefficientCount_append]
    exact hstate.uses.trans huses
  · rw [hsizes samples' state' hended, hstate.sizes samples state rfl, List.flatMap_append,
      List.flatMap_singleton]

/-- A sweep of a usable configuration leaves the samples of all its polynomials. -/
theorem sweep_yields (source : SeededSource σ) (h : config.Usable) (capability : Capability)
    (seed : UInt64) :
    Yields (sweep ⟨.of c, s⟩ w source capability config seed).run fun ended =>
      (ended.isSome ↔ source.Supplies config.coefficientCount (source.ofSeed seed)) ∧
      ∀ report, ended = some report →
        report.capability = capability ∧ report.samples.map SweepSample.sizes = config.swept := by
  have hstart : SweptSoFar config source.toWordSource (source.ofSeed seed) []
      (some ([], source.ofSeed seed)) := by
    refine ⟨.zero, ?_⟩
    rintro samples state ⟨⟩
    rfl
  have hrun := Yields.option_foldlM SweptSoFar.of_none
    (fun d hd done state hstate => sweepDegree_step c s hw h hd hstate) hstart
  refine .option_bind hrun (fun hnone => ?_) ?_
  · exact ⟨hnone.uses.isSome_iff, fun report h => absurd h (Option.some_ne_none _).symm⟩
  · rintro ⟨samples, state⟩ hsome
    refine .pure ⟨hsome.uses.isSome_iff, ?_⟩
    rintro report ⟨⟩
    exact ⟨rfl, hsome.sizes samples state rfl⟩

/-- A sweep of a configuration that validation accepts does not fail, whatever the
    seed, memory permitting. It has an end exactly if the source of words comes to as
    many canonical ones as there are coefficients, whatever else it yields. The samples
    are the sizes and rates of the configuration with a sum that it asks for, each of
    them once, ordered by size and then by rate. -/
theorem sweep_completes (source : SeededSource σ) (capability : Capability)
    (hvalid : config.validate = .ok ()) (seed : UInt64) :
    Yields (sweep ⟨.of c, s⟩ w source capability config seed).run fun ended =>
      (ended.isSome ↔ source.Supplies config.coefficientCount (source.ofSeed seed)) ∧
      ∀ report, ended = some report →
        report.capability = capability ∧
          Swept config (report.samples.map SweepSample.sizes) := by
  have husable := RunConfig.validate_eq_ok_iff.mp hvalid
  refine (sweep_yields c s hw source husable capability seed).mono ?_
  rintro ended ⟨hends, hreport⟩
  refine ⟨hends, fun report hended => ?_⟩
  rw [(hreport report hended).2]
  exact ⟨(hreport report hended).1, RunConfig.swept_swept husable⟩

end Steps

/-- The quick check, in which the largest polynomial is not extended at the highest
    rate. The first 1792 words of the seed are all canonical. -/
theorem sweep_completes_smoke : ∃ report : SweepReport,
    (sweep ⟨.of .avx2, .backward 2⟩ .still .generator .avx2 Profile.smoke.config 42).run.run =
        .ok (some report) ∧
      report.samples.map SweepSample.sizes =
        [⟨8, 1, 9⟩, ⟨8, 2, 10⟩, ⟨9, 1, 10⟩, ⟨9, 2, 11⟩, ⟨10, 1, 11⟩] := by
  have hvalid : Profile.smoke.config.validate = .ok () := rfl
  have hyields := sweep_completes .avx2 (.backward 2) Stopwatch.still_faithful .generator .avx2
    hvalid 42
  have hsupplies : SeededSource.generator.Supplies Profile.smoke.config.coefficientCount
      (Generator.ofSeed 42) := ⟨1792, by decide +kernel⟩
  have hsizes : Profile.smoke.config.swept =
      [⟨8, 1, 9⟩, ⟨8, 2, 10⟩, ⟨9, 1, 10⟩, ⟨9, 2, 11⟩, ⟨10, 1, 11⟩] := by decide
  rcases hyields.exists_ok with ⟨ended, hrun, hends, hreport⟩
  rcases Option.isSome_iff_exists.mp (hends.mpr hsupplies) with ⟨report, rfl⟩
  refine ⟨report, hrun, ?_⟩
  rw [← hsizes]
  exact (hreport report rfl).2.unique
    (RunConfig.swept_swept (RunConfig.validate_eq_ok_iff.mp hvalid))

end TraceCommit
