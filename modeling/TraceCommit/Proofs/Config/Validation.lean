import TraceCommit.Config.Validation
import Mathlib.Logic.Basic

/-!
# What Validation Accepts

A validation is a sequence of checks, and a check decides a condition: it
accepts if the condition holds and otherwise gives a reason that is about the
configuration. Checks in sequence decide the conjunction of their conditions,
each of them under those before it, which is what keeps the only sum that could
overflow from doing so.

## Main definitions

* `Decides`: A check accepts exactly under a condition.
* `RunConfig.Usable`: A configuration that a run can complete with.

## Theorems

* `Decides.forM`, `Decides.guard`: Single checks, and what follows them.
* `RunConfig.validate_decides`: Validation accepts what is usable.
* `RunConfig.validate_ne_violation`: It breaks no contract itself.
-/

namespace TraceCommit

/-- The check accepts if the condition holds and else gives a reason, which is
    not that it has broken a contract itself. -/
def Decides (check : Except ConfigError Unit) (condition : Prop) : Prop :=
  (condition ∧ check = .ok ()) ∨
    (¬ condition ∧ ∃ reason, check = .error reason ∧ ∀ broken, reason ≠ .violation broken)

namespace Decides

variable {check next : Except ConfigError Unit} {condition rest : Prop}

theorem eq_ok_iff (h : Decides check condition) : check = .ok () ↔ condition := by
  rcases h with ⟨hcondition, hok⟩ | ⟨hcondition, reason, herror, _⟩
  · simp [hcondition, hok]
  · simp [hcondition, herror]

theorem ne_violation (h : Decides check condition) (broken : Violation) :
    check ≠ .error (.violation broken) := by
  rcases h with ⟨_, hok⟩ | ⟨_, reason, herror, hreason⟩
  · simp [hok]
  · rw [herror, Ne, Except.error.injEq]
    exact hreason broken

theorem of_iff {condition' : Prop} (h : Decides check condition)
    (hiff : condition ↔ condition') : Decides check condition' := by
  rwa [← propext hiff]

/-- Checks in sequence. -/
theorem bind (h : Decides check condition) (hrest : condition → Decides next rest) :
    Decides (check >>= fun _ => next) (condition ∧ rest) := by
  rcases h with ⟨hcondition, hok⟩ | ⟨hcondition, reason, herror, hreason⟩
  · rw [hok, ok_bind]
    exact (hrest hcondition).of_iff (by simp [hcondition])
  · rw [herror]
    exact Or.inr ⟨fun hboth => hcondition hboth.1, reason, rfl, hreason⟩

variable {refused : Prop} [Decidable refused] {reason : ConfigError}

theorem guard (hreason : ∀ broken, reason ≠ .violation broken) :
    Decides (if refused then throw reason else pure ()) (¬ refused) := by
  by_cases hrefused : refused
  · rw [if_pos hrefused]
    exact Or.inr ⟨not_not.mpr hrefused, reason, rfl, hreason⟩
  · rw [if_neg hrefused]
    exact Or.inl ⟨hrefused, rfl⟩

/-- A check in the middle, with what follows it. -/
theorem guard_then (hreason : ∀ broken, reason ≠ .violation broken)
    (hrest : ¬ refused → Decides next rest) :
    Decides (if refused then (throw reason >>= fun _ : Unit => next) else next)
      (¬ refused ∧ rest) := by
  by_cases hrefused : refused
  · rw [if_pos hrefused]
    exact Or.inr ⟨fun hboth => hboth.1 hrefused, reason, rfl, hreason⟩
  · rw [if_neg hrefused]
    exact (hrest hrefused).of_iff (by simp [hrefused])

/-- The same check for each of some items. -/
theorem forM {α : Type} {refuses : α → Prop} [DecidablePred refuses] {reason : α → ConfigError}
    (hreason : ∀ a broken, reason a ≠ .violation broken) (items : List α) :
    Decides (items.forM fun a => if refuses a then throw (reason a) else pure ())
      (∀ a ∈ items, ¬ refuses a) := by
  induction items with
  | nil => exact Or.inl ⟨by simp, rfl⟩
  | cons a items ih =>
      refine (bind (guard (hreason a)) (fun _ => ih)).of_iff ?_
      simp

end Decides

/-- A saturating sum stays below a bound exactly if the sum of the numbers does. -/
theorem toNat_saturatingAdd_le_iff {a b : UInt64} {n : Nat} (hn : n < UInt64.size - 1) :
    (saturatingAdd a b).toNat ≤ n ↔ a.toNat + b.toNat ≤ n := by
  have hsize : UInt64.size = 18446744073709551616 := rfl
  unfold saturatingAdd
  split
  · rename_i hfits
    rw [UInt64.toNat_add]
    omega
  · have hmax : (UInt64.ofNat (UInt64.size - 1)).toNat = UInt64.size - 1 := by decide
    rw [hmax]
    omega

namespace RunConfig

/-- A configuration that a run can complete with. -/
structure Usable (c : RunConfig) : Prop where
  /-- There are columns. -/
  columns_ne : c.columns ≠ 0
  /-- There are polynomial sizes, -/
  degree_nonempty : c.degreeLog2.min.toNat ≤ c.degreeLog2.max.toNat
  /-- extended sizes -/
  extended_nonempty : c.extendedLog2.min.toNat ≤ c.extendedLog2.max.toNat
  /-- and rates. -/
  rate_nonempty : c.rateBits.min.toNat ≤ c.rateBits.max.toNat
  /-- The lowest rate extends something. -/
  rate_ne : c.rateBits.min ≠ 0
  /-- The field has room for the extended trace at the highest rate, -/
  trace_le : c.rowsLog2.toNat + c.rateBits.max.toNat ≤ 32
  /-- for the largest polynomial at the highest rate -/
  degree_le : c.degreeLog2.max.toNat + c.rateBits.max.toNat ≤ 32
  /-- and for the largest extended size. -/
  extended_le : c.extendedLog2.max.toNat ≤ 32
  /-- The cap lies no lower than the leaves. -/
  cap_le : c.capHeight.toNat ≤ c.rowsLog2.toNat + c.rateBits.min.toNat

variable {c : RunConfig}

theorem ranges_nonempty_iff : (∀ r ∈ c.ranges, ¬ r.2.isEmpty = true) ↔
    c.degreeLog2.min.toNat ≤ c.degreeLog2.max.toNat ∧
      c.extendedLog2.min.toNat ≤ c.extendedLog2.max.toNat ∧
      c.rateBits.min.toNat ≤ c.rateBits.max.toNat := by
  simp [ranges, InclusiveRange.isEmpty, UInt64.le_iff_toNat_le]

theorem domains_le_iff : (∀ d ∈ c.domains, ¬ maxLog2Size < d.2.toNat) ↔
    c.rowsLog2.toNat + c.rateBits.max.toNat ≤ 32 ∧
      c.degreeLog2.max.toNat + c.rateBits.max.toNat ≤ 32 ∧ c.extendedLog2.max.toNat ≤ 32 := by
  have hmax : maxLog2Size = 32 := rfl
  have hlt : 32 < UInt64.size - 1 := by decide
  simp [domains, hmax, toNat_saturatingAdd_le_iff hlt]

/-- The height of the extended trace fits a word if the field has room for it. -/
theorem checkedAdd_height (hrate : c.rateBits.min.toNat ≤ c.rateBits.max.toNat)
    (htrace : c.rowsLog2.toNat + c.rateBits.max.toNat ≤ 32) :
    Checked.add c.rowsLog2 c.rateBits.min = .ok (c.rowsLog2 + c.rateBits.min) ∧
      (c.rowsLog2 + c.rateBits.min).toNat = c.rowsLog2.toNat + c.rateBits.min.toNat := by
  have hheight : (c.rowsLog2 + c.rateBits.min).toNat =
      c.rowsLog2.toNat + c.rateBits.min.toNat := by
    rw [UInt64.toNat_add]
    omega
  exact ⟨Checked.add_eq_ok_iff.mpr hheight, hheight⟩

/-- The check of the cap, whose sum does not overflow after the checks before. -/
theorem decides_cap (hrate : c.rateBits.min.toNat ≤ c.rateBits.max.toNat)
    (htrace : c.rowsLog2.toNat + c.rateBits.max.toNat ≤ 32) :
    Decides (do
      let height ← Checked.add c.rowsLog2 c.rateBits.min
      if height < c.capHeight then throw (.capHeightTooLarge c.capHeight height))
      (c.capHeight.toNat ≤ c.rowsLog2.toNat + c.rateBits.min.toNat) := by
  rcases checkedAdd_height hrate htrace with ⟨hadd, hheight⟩
  rw [hadd]
  refine Decides.of_iff (Decides.guard (by simp)) ?_
  rw [UInt64.lt_iff_toNat_lt, hheight, Nat.not_lt]

/-- Validation accepts exactly the configurations that are usable. -/
theorem validate_decides (c : RunConfig) : Decides c.validate c.Usable := by
  refine Decides.of_iff (Decides.guard_then (by simp) fun hcolumns =>
    Decides.bind (Decides.forM (by simp) c.ranges) fun hranges =>
    Decides.guard_then (by simp) fun hzero =>
    Decides.bind (Decides.forM (by simp) c.domains) fun hdomains =>
    decides_cap (ranges_nonempty_iff.mp hranges).2.2 (domains_le_iff.mp hdomains).1) ?_
  rw [ranges_nonempty_iff, domains_le_iff]
  constructor
  · rintro ⟨h₁, ⟨h₂, h₃, h₄⟩, h₅, ⟨h₆, h₇, h₈⟩, h₉⟩
    exact ⟨h₁, h₂, h₃, h₄, h₅, h₆, h₇, h₈, h₉⟩
  · rintro ⟨h₁, h₂, h₃, h₄, h₅, h₆, h₇, h₈, h₉⟩
    exact ⟨h₁, ⟨h₂, h₃, h₄⟩, h₅, ⟨h₆, h₇, h₈⟩, h₉⟩

theorem validate_eq_ok_iff : c.validate = .ok () ↔ c.Usable := c.validate_decides.eq_ok_iff

theorem validate_ne_violation (c : RunConfig) (broken : Violation) :
    c.validate ≠ .error (.violation broken) :=
  c.validate_decides.ne_violation broken

end RunConfig

end TraceCommit
