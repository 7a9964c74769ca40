import TraceCommit.Proofs.Committable
import TraceCommit.Proofs.Config.Validation
import TraceCommit.Proofs.Merkle.Halves
import TraceCommit.Report

/-!
# Runs Complete

A configuration that validation accepts is one that a run completes with. The
bounds that are checked in advance are those that the stages ask for later on:
the shift that makes the number of rows, the domains of the transforms, the room
of the extension, the heights of its columns and the height of the cap. What the
run reports does not depend on the clock, but for the times.

## Main definitions

* `Reports`: A run ends with a report, whatever the clock says.

## Theorems

* `exists_fibonacciTrace`: A trace that there is room for is made.
* `proveWith_reports`: What is reported of the tree.
* `prove_completes`: A run is refused by validation or ends with its report.
-/

namespace TraceCommit

/-- The sequence grows by as many values as are asked for. -/
theorem size_appendFibonacci (count : Nat) : ∀ (a b : Element) (column : Array Element),
    (appendFibonacci count a b column).size = column.size + count := by
  induction count with
  | zero =>
      intro a b column
      rfl
  | succ count ih =>
      intro a b column
      rw [appendFibonacci, ih, Array.size_push]
      omega

/-- A trace that there is room for is made, with columns of one height. -/
theorem exists_fibonacciTrace (s : Schedule) {rows columns : Nat}
    (hrows : Element.byteCount * rows ≤ maxSequenceBytes)
    (hcolumns : sequenceHandleBytes * columns ≤ maxSequenceBytes) :
    ∃ values, fibonacciTrace s rows columns = .ok values ∧ values.size = columns ∧
      ∀ i (hi : i < values.size), values[i].size = rows := by
  let column (i : Nat) : Array Element :=
    appendFibonacci rows (Element.ofWord (UInt64.ofNat i)) (Element.ofWord (UInt64.ofNat i) + 1) #[]
  have hcolumn (i : Nat) : fibonacciColumn (UInt64.ofNat i) rows = .ok (column i) := by
    unfold fibonacciColumn
    rw [requireRoom_eq_ok_iff.mpr hrows]
    rfl
  refine ⟨Array.ofFn fun i : Fin columns => column i, ?_, Array.size_ofFn, fun i hi => ?_⟩
  · unfold fibonacciTrace
    rw [requireRoom_eq_ok_iff.mpr hcolumns]
    exact s.collect_eq_pure _ columns column (fun i _ => hcolumn i)
  · rw [Array.getElem_ofFn, size_appendFibonacci, Array.size_empty, Nat.zero_add]

/-- The number of rows is a shifted one that stays in its word. -/
theorem RunConfig.exists_rows {config : RunConfig} (hrows : config.rowsLog2.toNat ≤ 32) :
    ∃ rows, config.rows = .ok rows ∧ rows.toNat = 2 ^ config.rowsLog2.toNat :=
  Checked.exists_shiftLeft_one (by omega)

variable (c : Capability) (s : Schedule) {m : Type → Type} [Monad m] [LawfulMonad m] {δ : Type}
  (h : Hasher δ)

/-- The run ends with the report. Only the times in it depend on the clock. -/
def Reports (run : ExceptT Failure m RunReport) (report : RunReport) : Prop :=
  ∃ times : m (List PhaseTiming × Float),
    run.run = (fun t => .ok { report with phases := t.1, totalMillis := t.2 }) <$> times

variable {e : Engine} {w : Stopwatch m} {capability : Capability} {config : RunConfig}

/-- A run whose tree is built reports what it reads from the tree. -/
theorem proveWith_reports {tree : MerkleTree δ} {rows : UInt64} {root : δ} {cap : MerkleCap δ}
    (htree : Timed.Returns (traceAndCommit h e w config) tree) (hrows : config.rows = .ok rows)
    (hroot : tree.root = .ok root) (hcap : tree.cap = .ok cap) :
    Reports (proveWith h e w capability config) {
      hash := config.hash
      capability := capability
      rows := rows
      columns := config.columns
      rateBits := config.rateBits.min
      extendedRows := UInt64.ofNat tree.leafCount
      capHeight := config.capHeight
      phases := []
      totalMillis := 0
      root := h.hex root
      cap := cap.nodes.toList.map h.hex } := by
  rcases htree with ⟨notes, hrun⟩
  refine ⟨do
    let start ← w.now
    let after ← notes #[]
    let stop ← w.now
    pure (after.toList, (Duration.ofNanos (stop - start)).millis), ?_⟩
  unfold proveWith
  simp only [ExceptT.run_bind, ExceptT.run_liftM, bind_map_left, hrun, hrows, hroot, hcap, attempt,
    ExceptT.run_pure, pure_bind, map_bind, map_pure]

/-- What a report says about the sizes and the commitment of a configuration. -/
structure RunReport.Describes (report : RunReport) (config : RunConfig) : Prop where
  /-- The rows of the trace. -/
  rows : report.rows.toNat = 2 ^ config.rowsLog2.toNat
  /-- Those of the extended trace, at the lowest rate. -/
  extendedRows : report.extendedRows.toNat =
    2 ^ (config.rowsLog2.toNat + config.rateBits.min.toNat)
  /-- The nodes of the cap. -/
  cap : report.cap.length = 2 ^ config.capHeight.toNat
  /-- A cap of one node is the root. -/
  root : config.capHeight = 0 → report.cap = [report.root]

/-- A run with a usable configuration that there is memory for ends. -/
theorem exists_proveWith (hw : w.Faithful) (husable : config.Usable)
    (hroom : sequenceHandleBytes * config.columns.toNat ≤ maxSequenceBytes) :
    ∃ report : RunReport, Reports (proveWith h ⟨.of c, s⟩ w capability config) report ∧
      report.Describes config := by
  have hrate := husable.rate_nonempty
  have htrace := husable.trace_le
  rcases RunConfig.exists_rows (by omega : config.rowsLog2.toNat ≤ 32) with ⟨rows, hrows, hcount⟩
  -- A column of the trace takes no more than 2 ^ 35 bytes.
  have hcolumn : Element.byteCount * rows.toNat ≤ maxSequenceBytes := by
    have hpow : 2 ^ config.rowsLog2.toNat ≤ 2 ^ 32 :=
      Nat.pow_le_pow_right Nat.two_pos (by omega)
    rw [hcount, Element.byteCount, maxSequenceBytes]
    omega
  rcases exists_fibonacciTrace (s.branch 0) hcolumn hroom with ⟨columns, hmade, hwidth, hheight⟩
  have hwork : (do
      let rows ← config.rows
      fibonacciTrace (s.branch 0) rows.toNat config.columns.toNat) = .ok columns := by
    rw [hrows, ok_bind, hmade]
  have hnonempty : 0 < columns.size := by
    rw [hwidth, Nat.pos_iff_ne_zero]
    exact fun hzero => husable.columns_ne (UInt64.toNat_inj.mp hzero)
  rw [hcount] at hheight
  have hextended : config.rowsLog2.toNat + config.rateBits.min.toNat ≤ 32 := by omega
  have hcap : (MerkleConfig.mk config.capHeight config.padding).capHeight.toNat ≤
      config.rowsLog2.toNat + config.rateBits.min.toNat := husable.cap_le
  rcases exists_commitTrace c (s.branch 1) h hw ⟨hnonempty, hheight⟩ hextended hcap with
    ⟨leaf, tree, hcommit, hover, htreeHeight, hcapHeight⟩
  have htree : Timed.Returns (traceAndCommit h ⟨.of c, s⟩ w config) tree :=
    (Timed.returns_phaseOrFail hw .trace .violation hwork).bind hcommit
  refine ⟨_, proveWith_reports h htree hrows hover.root_eq hover.cap_eq, ?_⟩
  exact {
    rows := hcount
    extendedRows := by
      have hword : 2 ^ tree.height < 2 ^ 64 := Nat.pow_lt_pow_right Nat.one_lt_two (by omega)
      rw [hover.leafCount, UInt64.toNat_ofNat_of_lt' hword, htreeHeight]
    cap := by simp [hcapHeight]
    root := fun hzero => by
      have hnone : tree.capHeight = 0 := by simp [hcapHeight, hzero]
      have hone := hover.cap_eq.symm.trans (hover.cap_eq_of_zero hnone)
      rw [Except.ok.injEq, MerkleCap.mk.injEq] at hone
      simp only [hone]
      rfl }

/-- A configuration is refused by validation, and for its own sake, or the run
    ends with a report that describes it, memory permitting. -/
theorem prove_completes (hw : w.Faithful) (capability : Capability) (config : RunConfig) :
    (∀ broken, config.validate ≠ .error (.violation broken)) ∧
    (∀ reason, config.validate = .error reason →
      (prove ⟨.of c, s⟩ w capability config).run = pure (.error (.config reason))) ∧
    (config.validate = .ok () → sequenceHandleBytes * config.columns.toNat ≤ maxSequenceBytes →
      ∃ report : RunReport, Reports (prove ⟨.of c, s⟩ w capability config) report ∧
        report.Describes config) := by
  refine ⟨config.validate_ne_violation, fun reason hrefused => ?_, fun hok hroom => ?_⟩
  · unfold prove
    rw [hrefused, ExceptT.run_bind]
    simp only [attempt, ExceptT.run_throw, pure_bind]
  · have husable := RunConfig.validate_eq_ok_iff.mp hok
    unfold prove
    rw [hok]
    simp only [attempt, pure_bind]
    cases config.hash with
    | poseidon => exact exists_proveWith c s .poseidon hw husable hroom
    | keccak => exact exists_proveWith c s (.keccak Keccak.defaultDigestBytes) hw husable hroom

/-- The smallest profile, and the same with more rows than a word can count. -/
theorem prove_completes_e2e :
    (∃ report : RunReport,
      Reports (prove ⟨.of .avx2, .backward 2⟩ .still .avx2 Profile.e2e.config) report ∧
        report.rows.toNat = 2 ^ 3 ∧ report.extendedRows.toNat = 2 ^ 4 ∧
        report.cap = [report.root]) ∧
    (prove ⟨.of .avx2, .backward 2⟩ .still .avx2
        { Profile.e2e.config with rowsLog2 := 18446744073709551615 }).run =
      pure (.error (.config (.domainTooLarge .trace 18446744073709551615 32))) := by
  have haccepted := (prove_completes .avx2 (.backward 2) Stopwatch.still_faithful .avx2
    Profile.e2e.config).2.2 rfl (by decide)
  have hrefused := (prove_completes .avx2 (.backward 2) Stopwatch.still_faithful .avx2
    { Profile.e2e.config with rowsLog2 := 18446744073709551615 }).2.1 _ rfl
  rcases haccepted with ⟨report, hreports, hdescribes⟩
  exact ⟨⟨report, hreports, hdescribes.rows, hdescribes.extendedRows, hdescribes.root rfl⟩,
    hrefused⟩

end TraceCommit
