import TraceCommit.CommandLine.Run
import TraceCommit.Proofs.Json.Codec
import TraceCommit.Sweep.Generator

/-!
# Replaying a Configuration

A complete configuration and a layer of overrides are written with the same
names, the same ranges and the same choices: a configuration is written as the
layer that sets everything. What such a layer is put over does not matter, so a
document of a configuration replays it over any other.

## Main definitions

* `Overrides.slots`: The fields of a written layer.
* `RunConfig.overrides`: The layer that sets everything.

## Theorems

* `Overrides.codec_lawful`, `RunConfig.codec_lawful`: Both records are read back.
* `RunConfig.write_eq`: A configuration is written as a layer.
* `RunConfig.resolve_stored`: What a run makes of a stored configuration.
* `stored_configurations_replay`: Stored layers and configurations are read
  back, and a configuration that was shown reproduces the run.
-/

namespace TraceCommit

open Json

/-- Steps in sequence give a result if each of them does. -/
theorem bind_eq_ok_iff {ε α β : Type} {x : Except ε α} {f : α → Except ε β} {b : β} :
    x >>= f = .ok b ↔ ∃ a, x = .ok a ∧ f a = .ok b := by
  cases x with
  | error e => simp [bind, Except.bind]
  | ok a => simp [bind, Except.bind]

theorem Capability.codec_lawful : Capability.codec.Lawful :=
  Codec.choice_lawful fun capability => by cases capability <;> rfl

theorem HashFamily.codec_lawful : HashFamily.codec.Lawful :=
  Codec.choice_lawful fun hash => by cases hash <;> rfl

theorem PaddingPolicy.codec_lawful : PaddingPolicy.codec.Lawful :=
  Codec.choice_lawful fun padding => by cases padding <;> rfl

/-- A range is read back whether or not it contains anything. -/
theorem InclusiveRange.codec_lawful : InclusiveRange.codec.Lawful where
  spelled := fun r => by
    refine Value.spelled_record_iff.mpr (List.forall_mem_cons.mpr ⟨Value.spelled_word r.min, ?_⟩)
    exact List.forall_mem_singleton.mpr (Value.spelled_word r.max)
  ne_null := fun _ h => by cases h
  read_write := fun r => by
    have hnames : ["min", "max"].Nodup := by decide
    have hfields : (codec.write r).record? ["min", "max"] false =
        some [some (.word r.min), some (.word r.max)] :=
      Value.record?_setMembers [some (.word r.min), some (.word r.max)] false hnames rfl
    have hmin := Codec.word_lawful.required_eq r.min
    have hmax := Codec.word_lawful.required_eq r.max
    simp only [Codec.word] at hmin hmax
    simp only [codec] at hfields ⊢
    rw [hfields]
    simp only [hmin, hmax, Option.bind_eq_bind, Option.bind_some, Option.pure_def]

namespace Overrides

/-- The fields of a layer as they are written, in the order of their names. -/
def slots (o : Overrides) : List (Option Value) :=
  [o.rowsLog2.map .word, o.columns.map .word, o.degreeLog2.map InclusiveRange.codec.write,
    o.extendedLog2.map InclusiveRange.codec.write, o.rateBits.map InclusiveRange.codec.write,
    o.capability.map Capability.codec.write, o.hash.map HashFamily.codec.write,
    o.capHeight.map .word, o.padding.map PaddingPolicy.codec.write]

/-- A written layer has the fields that are set, and no others. -/
theorem record?_write (o : Overrides) (closed : Bool) :
    (codec.write o).record? settingNames closed = some o.slots :=
  Value.record?_setMembers o.slots closed (by decide) rfl

theorem spelled_write (o : Overrides) : (codec.write o).Spelled := by
  refine Value.spelled_record_iff.mpr fun member hmember => ?_
  have hslot : some member.2 ∈ o.slots := Value.mem_setMembers hmember
  simp only [slots, List.mem_cons, List.not_mem_nil, or_false] at hslot
  rcases hslot with h | h | h | h | h | h | h | h | h
  · exact Codec.word_lawful.spelled_of_field h
  · exact Codec.word_lawful.spelled_of_field h
  · exact InclusiveRange.codec_lawful.spelled_of_field h
  · exact InclusiveRange.codec_lawful.spelled_of_field h
  · exact InclusiveRange.codec_lawful.spelled_of_field h
  · exact Capability.codec_lawful.spelled_of_field h
  · exact HashFamily.codec_lawful.spelled_of_field h
  · exact Codec.word_lawful.spelled_of_field h
  · exact PaddingPolicy.codec_lawful.spelled_of_field h

theorem codec_lawful : codec.Lawful where
  spelled := spelled_write
  ne_null := fun _ h => by cases h
  read_write := fun o => by
    have hword : ∀ field : Option UInt64, optional Value.word? (field.map .word) = some field :=
      Codec.word_lawful.optional_eq
    have hfields := record?_write o true
    simp only [codec] at hfields ⊢
    rw [hfields]
    simp only [slots, hword, InclusiveRange.codec_lawful.optional_eq,
      Capability.codec_lawful.optional_eq, HashFamily.codec_lawful.optional_eq,
      PaddingPolicy.codec_lawful.optional_eq, Option.bind_eq_bind, Option.bind_some,
      Option.pure_def]

/-- A document of a layer is accepted as that layer. -/
theorem ofDocument_documents {o : Overrides} {text : String} (htext : text ∈ codec.documents o) :
    ofDocument text = .ok o := by
  rw [ofDocument, codec_lawful.ofText?_documents o text htext]

end Overrides

namespace RunConfig

/-- The layer that sets everything as the configuration has it. -/
def overrides (c : RunConfig) : Overrides :=
  ⟨some c.rowsLog2, some c.columns, some c.degreeLog2, some c.extendedLog2, some c.rateBits,
    some c.capability, some c.hash, some c.capHeight, some c.padding⟩

/-- What is below a layer that sets everything does not show. -/
theorem apply_overrides (c base : RunConfig) : c.overrides.apply base = c := rfl

/-- A configuration is written as the layer that sets everything. -/
theorem write_eq (c : RunConfig) : codec.write c = Overrides.codec.write c.overrides := rfl

/-- So their documents are the same, and one of a configuration is accepted as a
    layer. -/
theorem ofDocument_documents {c : RunConfig} {text : String} (htext : text ∈ codec.documents c) :
    Overrides.ofDocument text = .ok c.overrides := by
  have hsame : codec.documents c = Overrides.codec.documents c.overrides := rfl
  rw [hsame] at htext
  exact Overrides.ofDocument_documents htext

theorem codec_lawful : codec.Lawful where
  spelled := fun c => Overrides.spelled_write c.overrides
  ne_null := fun _ h => by cases h
  read_write := fun c => by
    have hword : ∀ w : UInt64, required Value.word? (some (.word w)) = some w :=
      Codec.word_lawful.required_eq
    have hfields := Overrides.record?_write c.overrides false
    rw [← write_eq] at hfields
    simp only [codec] at hfields ⊢
    rw [hfields]
    simp only [Overrides.slots, overrides, Option.map_some, hword,
      InclusiveRange.codec_lawful.required_eq, Capability.codec_lawful.required_eq,
      HashFamily.codec_lawful.required_eq, PaddingPolicy.codec_lawful.required_eq,
      Option.bind_eq_bind, Option.bind_some, Option.pure_def]

/-- The layers of a run in sequence; without a file, the lowest is empty. -/
theorem resolve_eq (profile : Profile) (file : Option ConfigFile)
    (lookup : String → Option String) (flags : Overrides) :
    resolve profile file lookup flags =
      (file.elim (.ok .empty) Overrides.ofFile >>= fun stored =>
        Overrides.ofEnvironment lookup >>= fun surrounding =>
          (flags.apply (surrounding.apply (stored.apply profile.config))).validate >>= fun _ =>
            .ok (flags.apply (surrounding.apply (stored.apply profile.config)))) := by
  cases file with
  | none => rfl
  | some file => rfl

/-- A run over a stored configuration starts from it, whatever its profile. -/
theorem resolve_stored {c : RunConfig} {text : String} (htext : text ∈ codec.documents c)
    (profile : Profile) (path : String) (lookup : String → Option String) (flags : Overrides) :
    resolve profile (some ⟨path, .ok text⟩) lookup flags = (do
      let surrounding ← Overrides.ofEnvironment lookup
      let config := flags.apply (surrounding.apply c)
      config.validate
      return config) := by
  have hlayer : Overrides.ofFile ⟨path, .ok text⟩ = .ok c.overrides := ofDocument_documents htext
  rw [resolve_eq, Option.elim_some, hlayer]
  rfl

/-- With nothing above it, a stored configuration is resolved to itself. -/
theorem resolve_stored_alone {c : RunConfig} {text : String} (htext : text ∈ codec.documents c)
    (hvalid : c.validate = .ok ()) (profile : Profile) (path : String) :
    resolve profile (some ⟨path, .ok text⟩) (fun _ => none) .empty = .ok c := by
  have hnone : Overrides.ofEnvironment (fun _ => none) = .ok .empty := rfl
  have hsame : Overrides.empty.apply (Overrides.empty.apply c) = c := rfl
  rw [resolve_stored htext, hnone, ok_bind, hsame]
  exact bind_eq_ok_iff.mpr ⟨(), hvalid, rfl⟩

/-- What is resolved has been validated. -/
theorem validate_of_resolve {profile : Profile} {file : Option ConfigFile}
    {lookup : String → Option String} {flags : Overrides} {c : RunConfig}
    (h : resolve profile file lookup flags = .ok c) : c.validate = .ok () := by
  rw [resolve_eq] at h
  rcases bind_eq_ok_iff.mp h with ⟨stored, _, h⟩
  rcases bind_eq_ok_iff.mp h with ⟨surrounding, _, h⟩
  rcases bind_eq_ok_iff.mp h with ⟨⟨⟩, hvalid, h⟩
  rwa [← Except.ok.inj h]

end RunConfig

namespace Arguments

variable {m : Type → Type} [Monad m] {σ : Type}

/-- What is carried out is settled by the configuration, the command, and
    whether kernels may fork. -/
theorem run_eq_of_resolve {arguments arguments' : Arguments} {file file' : Option ConfigFile}
    {lookup lookup' : String → Option String} (hcommand : arguments'.command = arguments.command)
    (hsequential : arguments'.sequential = arguments.sequential)
    (hconfig : RunConfig.resolve arguments'.profile file' lookup' arguments'.overrides =
      RunConfig.resolve arguments.profile file lookup arguments.overrides)
    (w : Stopwatch m) (source : SeededSource σ) (registry : Registry) (schedule : Schedule) :
    arguments'.run w source registry schedule file' lookup' =
      arguments.run w source registry schedule file lookup := by
  unfold run
  rw [hcommand, hsequential, hconfig]

/-- The steps of a run one after another. -/
theorem run_run [LawfulMonad m] (arguments : Arguments) (w : Stopwatch m)
    (source : SeededSource σ) (registry : Registry) (schedule : Schedule)
    (file : Option ConfigFile) (lookup : String → Option String) :
    (arguments.run w source registry schedule file lookup).run =
      (attempt .config (RunConfig.resolve arguments.profile file lookup arguments.overrides) >>=
        fun c => attempt .capability (registry.install c.capability).1 >>= fun capability =>
          (runCommand arguments.command ⟨.of capability,
            ((Switch.atRest true).set (!arguments.sequential)).restrict schedule⟩ w source
            capability c).run) := by
  unfold run
  rw [run_lift_bind]
  exact bind_congr (fun c => run_lift_bind _ _)

/-- What the command that shows the configuration reports. -/
theorem eq_write_of_run {arguments : Arguments} {w : Stopwatch Id} {source : SeededSource σ}
    {registry : Registry} {schedule : Schedule} {file : Option ConfigFile}
    {lookup : String → Option String} {shown : Value} (hcommand : arguments.command = .config)
    (h : (arguments.run w source registry schedule file lookup).run.run =
      Except.ok (some shown)) :
    ∃ c, RunConfig.resolve arguments.profile file lookup arguments.overrides = .ok c ∧
      shown = RunConfig.codec.write c := by
  rw [run_run, hcommand] at h
  cases hc : RunConfig.resolve arguments.profile file lookup arguments.overrides with
  | error e =>
      rw [hc] at h
      cases h
  | ok c =>
      rw [hc] at h
      cases hcapability : (registry.install c.capability).1 with
      | error e =>
          simp only [attempt, hcapability, pure_bind] at h
          cases h
      | ok capability =>
          simp only [attempt, hcapability, pure_bind] at h
          exact ⟨c, rfl, (Option.some.inj (Except.ok.inj h)).symm⟩

end Arguments

/-- A stored layer is read back, and so is a stored configuration. A stored
    configuration is also a layer, which puts it over any other configuration.
    So the text that a process prints when it is asked to show its configuration
    can be given to another one as a file: with nothing set besides, the latter
    does what it would do with the layers that the former was given. -/
theorem stored_configurations_replay :
    (∀ o : Overrides, ∀ text ∈ Overrides.codec.documents o,
      Overrides.ofDocument text = .ok o) ∧
    (∀ c : RunConfig, ∀ text ∈ RunConfig.codec.documents c,
      RunConfig.codec.ofText? text = some c) ∧
    (∀ c : RunConfig, ∀ text ∈ RunConfig.codec.documents c,
      ∃ layer, Overrides.ofDocument text = .ok layer ∧ ∀ base, layer.apply base = c) ∧
    (∀ (arguments : Arguments) (file : Option ConfigFile) (lookup : String → Option String)
        (clock : Stopwatch Id) {σ : Type} (source : SeededSource σ) (registry : Registry)
        (schedule : Schedule) (shown : Value),
      ({ arguments with command := .config }.run clock source registry schedule file
          lookup).run.run = Except.ok (some shown) →
        ∀ {m : Type → Type} [Monad m] (command : Command) (profile : Profile) (path : String)
          (w : Stopwatch m) {τ : Type} (source' : SeededSource τ) (registry' : Registry)
          (schedule' : Schedule),
          { arguments with command, profile, config := some path, overrides := .empty }.run
              w source' registry' schedule' (some ⟨path, .ok (shown.pretty ++ "\n")⟩)
              (fun _ => none) =
            { arguments with command }.run w source' registry' schedule' file lookup) := by
  refine ⟨fun o text htext => ?_, fun c => RunConfig.codec_lawful.ofText?_documents c,
    fun c text htext => ?_, ?_⟩
  · exact Overrides.ofDocument_documents htext
  · exact ⟨c.overrides, RunConfig.ofDocument_documents htext, c.apply_overrides⟩
  · intro arguments file lookup clock σ source registry schedule shown hshown m _ command profile
      path w τ source' registry' schedule'
    rcases Arguments.eq_write_of_run rfl hshown with ⟨c, hc, rfl⟩
    have htext : (RunConfig.codec.write c).pretty ++ "\n" ∈ RunConfig.codec.documents c :=
      List.mem_cons_of_mem _ (List.mem_cons_of_mem _ (List.mem_singleton_self _))
    refine Arguments.run_eq_of_resolve ?_ ?_ ?_ w source' registry' schedule'
    · rfl
    · rfl
    · exact (RunConfig.resolve_stored_alone htext (RunConfig.validate_of_resolve hc) profile
      path).trans hc.symm

/-- A layer with a single setting, the smallest configuration, and that
    configuration with the setting asked for on the command line. -/
theorem stored_configurations_replay_five_columns :
    Overrides.ofDocument "\x7b\"columns\":5\x7d" =
        .ok { Overrides.empty with columns := some 5 } ∧
      RunConfig.codec.ofText? (RunConfig.codec.toText Profile.e2e.config) =
        some Profile.e2e.config ∧
      (∃ layer, Overrides.ofDocument (RunConfig.codec.toText Profile.e2e.config) = .ok layer ∧
        ∀ base, layer.apply base = Profile.e2e.config) ∧
      ∀ command,
        (Arguments.mk .bench (some "shown.json") .empty true command).run Stopwatch.still
            SeededSource.generator .fresh .sequential (some ⟨"shown.json", .ok
              ((RunConfig.codec.write { Profile.e2e.config with columns := 5 }).pretty ++ "\n")⟩)
            (fun _ => none) =
          (Arguments.mk .e2e none { Overrides.empty with columns := some 5 } true command).run
            Stopwatch.still .generator .fresh .sequential none (fun _ => none) := by
  refine ⟨?_, ?_, ?_, fun command => ?_⟩
  · exact stored_configurations_replay.1 _ _ (by decide +kernel)
  · exact stored_configurations_replay.2.1 Profile.e2e.config _ List.mem_cons_self
  · exact stored_configurations_replay.2.2.1 Profile.e2e.config _ List.mem_cons_self
  · exact stored_configurations_replay.2.2.2
      ⟨.e2e, none, { Overrides.empty with columns := some 5 }, true, .config⟩ none (fun _ => none)
      Stopwatch.still SeededSource.generator .fresh .sequential
      (RunConfig.codec.write { Profile.e2e.config with columns := 5 }) rfl command .bench
      "shown.json" Stopwatch.still .generator .fresh .sequential

end TraceCommit
