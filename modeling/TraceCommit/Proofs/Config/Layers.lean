import TraceCommit.Proofs.Config.Document

/-!
# Which Layer Decides

Four layers lie over each other, and three of them leave settings out: a file what
it does not mention, the environment what has no variable, the command line what
has no option. A setting has the value of the topmost layer that has one for it.
The profile lies at the bottom and has all of them.

Layers are read before they are laid over each other. A file that cannot be read
ends the resolution, and so does a variable whose value cannot be used: `Reads` says
of a computation that it looks at some variables in order and ends with the first
such value, and reading the environment is put together from single variables that
way.

## Main definitions

* `topmost`: The value of the first layer that has one.
* `Variable.setting?`, `Variable.refusal?`: What a variable holds, or why that
  cannot be used.
* `Reads`: A computation that looks at variables in order.
* `Settled`: The layer that each setting is from.
* `ResolutionEnds`: How a resolution ends.

## Theorems

* `reads_ofEnvironment`: The environment is read in the order of its variables.
* `settled_apply`, `Settled.unique`: Applying layers from the bottom up settles every
  setting, and nothing else does.
* `RunConfig.resolve_eq_iff_resolutionEnds`: A resolution ends in these ways.
-/

namespace TraceCommit

variable {α β : Type}

/-- The value of the first layer that has one, or else of what lies below them. -/
def topmost : List (Option α) → α → α
  | [], base => base
  | none :: below, base => topmost below base
  | some a :: _, _ => a

theorem topmost_cons (layer : Option α) (below : List (Option α)) (base : α) :
    topmost (layer :: below) base = layer.getD (topmost below base) := by
  cases layer with
  | none => rfl
  | some a => rfl

/-- The capability that a value names. -/
def capabilityOfValue (value : String) : Except ValueRefusal Capability :=
  (Capability.ofText value).mapError .capability

/-- The hash that a value names. -/
def hashOfValue (value : String) : Except ValueRefusal HashFamily :=
  (HashFamily.ofText value).mapError .hash

/-- The reason for a refusal, if it is one. -/
def refusalOf : Except ValueRefusal α → Option ValueRefusal
  | .ok _ => none
  | .error refusal => some refusal

namespace Variable

/-- The setting that a variable holds, if it holds one that can be used. -/
def setting? (key : Variable) (parse : String → Except ValueRefusal α)
    (lookup : String → Option String) : Option α :=
  (lookup key.key).bind fun value => (parse value).toOption

/-- Why a value of a variable cannot be used, if it cannot. -/
def refusal? (key : Variable) (value : String) : Option ValueRefusal :=
  match key with
  | .simd => refusalOf (capabilityOfValue value)
  | .hash => refusalOf (hashOfValue value)
  | .rowsLog2 | .columns | .rateBits | .capHeight => refusalOf (numberOfValue value)

/-- The error of a variable whose value cannot be used. -/
def error? (lookup : String → Option String) (key : Variable) : Option ConfigError :=
  (lookup key.key).bind fun value => (key.refusal? value).map (.invalidVariable key value)

theorem error?_eq_some_iff {lookup : String → Option String} {key : Variable} {e : ConfigError} :
    key.error? lookup = some e ↔ ∃ value refusal, lookup key.key = some value ∧
      key.refusal? value = some refusal ∧ .invalidVariable key value refusal = e := by
  simp only [error?, Option.bind_eq_some_iff, Option.map_eq_some_iff, exists_and_left]

theorem error?_eq_none_iff {lookup : String → Option String} {key : Variable} :
    key.error? lookup = none ↔
      ∀ value, lookup key.key = some value → key.refusal? value = none := by
  simp only [error?, Option.bind_eq_none_iff, Option.map_eq_none_iff]

end Variable

/-- The computation looks at the variables in order, and ends with the error of the
    first one whose value cannot be used. Otherwise it gives the result. -/
def Reads (lookup : String → Option String) (keys : List Variable) (x : Except ConfigError α)
    (a : α) : Prop :=
  match keys.findSome? (Variable.error? lookup) with
  | some e => x = .error e
  | none => x = .ok a

section Reads

variable {lookup : String → Option String}

/-- What is read afterwards is looked at afterwards. -/
theorem Reads.bind {keys keys' : List Variable} {x : Except ConfigError α}
    {f : α → Except ConfigError β} {a : α} {b : β} (h : Reads lookup keys x a)
    (hf : Reads lookup keys' (f a) b) : Reads lookup (keys ++ keys') (x >>= f) b := by
  unfold Reads at h hf ⊢
  rw [List.findSome?_append]
  cases hfirst : keys.findSome? (Variable.error? lookup) with
  | some e =>
      rw [hfirst] at h
      rw [h]
      rfl
  | none =>
      rw [hfirst] at h
      rw [h]
      exact hf

theorem reads_pure (a : α) : Reads lookup [] (.ok a) a := rfl

/-- A single variable, read by the parser that decides about its values. -/
theorem reads_read? {key : Variable} {parse : String → Except ValueRefusal α}
    (hparse : ∀ value, key.refusal? value = refusalOf (parse value)) :
    Reads lookup [key] (key.read? parse lookup) (key.setting? parse lookup) := by
  unfold Reads Variable.read? Variable.setting?
  rw [List.findSome?_singleton, Variable.error?]
  cases lookup key.key with
  | none => rfl
  | some value =>
      simp only [Option.bind_some, hparse]
      cases parse value with
      | ok a => rfl
      | error refusal => rfl

end Reads

/-- The layer of the settings that the environment holds. -/
def Overrides.surrounding (lookup : String → Option String) : Overrides :=
  { Overrides.empty with
    rowsLog2 := Variable.rowsLog2.setting? numberOfValue lookup
    columns := Variable.columns.setting? numberOfValue lookup
    rateBits := (Variable.rateBits.setting? numberOfValue lookup).map .single
    capability := Variable.simd.setting? capabilityOfValue lookup
    hash := Variable.hash.setting? hashOfValue lookup
    capHeight := Variable.capHeight.setting? numberOfValue lookup }

/-- The environment is read in the order of its variables. -/
theorem reads_ofEnvironment (lookup : String → Option String) :
    Reads lookup Variable.all (Overrides.ofEnvironment lookup) (.surrounding lookup) := by
  refine Reads.bind (reads_read? fun _ => rfl) ?_
  refine Reads.bind (reads_read? fun _ => rfl) ?_
  refine Reads.bind (reads_read? fun _ => rfl) ?_
  refine Reads.bind (reads_read? fun _ => rfl) ?_
  refine Reads.bind (reads_read? fun _ => rfl) ?_
  exact Reads.bind (reads_read? fun _ => rfl) (reads_pure _)

/-- The variable has a value that cannot be used, and none of those before it has. -/
structure FirstRefused (lookup : String → Option String) (key : Variable) (value : String)
    (refusal : ValueRefusal) : Prop where
  held : lookup key.key = some value
  refused : key.refusal? value = some refusal
  first : ∃ before behind, Variable.all = before ++ key :: behind ∧
    ∀ earlier ∈ before, ∀ other, lookup earlier.key = some other → earlier.refusal? other = none

/-- All variables that are set have values that can be used. -/
def AllUsable (lookup : String → Option String) : Prop :=
  ∀ (key : Variable) (value : String), lookup key.key = some value → key.refusal? value = none

section Environment

variable {lookup : String → Option String}

theorem ofEnvironment_of_firstRefused {key : Variable} {value : String} {refusal : ValueRefusal}
    (h : FirstRefused lookup key value refusal) :
    Overrides.ofEnvironment lookup = .error (.invalidVariable key value refusal) := by
  rcases h.first with ⟨before, behind, hall, hbefore⟩
  have hfirst : Variable.all.findSome? (Variable.error? lookup) =
      some (.invalidVariable key value refusal) := by
    rw [List.findSome?_eq_some_iff]
    refine ⟨before, key, behind, hall, ?_, fun earlier hearlier => ?_⟩
    · exact Variable.error?_eq_some_iff.mpr ⟨value, refusal, h.held, h.refused, rfl⟩
    · exact Variable.error?_eq_none_iff.mpr (hbefore earlier hearlier)
  have hreads := reads_ofEnvironment lookup
  rwa [Reads, hfirst] at hreads

theorem ofEnvironment_of_allUsable (h : AllUsable lookup) :
    Overrides.ofEnvironment lookup = .ok (.surrounding lookup) := by
  have hnone : Variable.all.findSome? (Variable.error? lookup) = none := by
    rw [List.findSome?_eq_none_iff]
    exact fun key _ => Variable.error?_eq_none_iff.mpr (h key)
  have hreads := reads_ofEnvironment lookup
  rwa [Reads, hnone] at hreads

theorem mem_all (key : Variable) : key ∈ Variable.all := by
  cases key <;> decide

/-- Either all values can be used or there is a first one that cannot. -/
theorem allUsable_or_firstRefused (lookup : String → Option String) :
    AllUsable lookup ∨ ∃ key value refusal, FirstRefused lookup key value refusal := by
  cases hfirst : Variable.all.findSome? (Variable.error? lookup) with
  | none =>
      rw [List.findSome?_eq_none_iff] at hfirst
      exact Or.inl fun key => Variable.error?_eq_none_iff.mp (hfirst key (mem_all key))
  | some e =>
      rcases List.findSome?_eq_some_iff.mp hfirst with ⟨before, key, behind, hall, he, hbefore⟩
      rcases Variable.error?_eq_some_iff.mp he with ⟨value, refusal, hheld, hrefused, -⟩
      exact Or.inr ⟨key, value, refusal, hheld, hrefused, before, behind, hall,
        fun earlier hearlier => Variable.error?_eq_none_iff.mp (hbefore earlier hearlier)⟩

end Environment

/-- Each setting has the value of the topmost layer that has one: the options, the
    environment, the file, and below them the profile. A single rate stands for the
    range of that rate. The sizes of a sweep are set by no option and no variable, and
    the padding by no variable. -/
structure Settled (options : Options) (lookup : String → Option String) (stored : Overrides)
    (base config : RunConfig) : Prop where
  rowsLog2 : config.rowsLog2 = topmost
    [options.rowsLog2, Variable.rowsLog2.setting? numberOfValue lookup, stored.rowsLog2]
    base.rowsLog2
  columns : config.columns = topmost
    [options.columns, Variable.columns.setting? numberOfValue lookup, stored.columns] base.columns
  degreeLog2 : config.degreeLog2 = topmost [stored.degreeLog2] base.degreeLog2
  extendedLog2 : config.extendedLog2 = topmost [stored.extendedLog2] base.extendedLog2
  rateBits : config.rateBits = topmost
    [options.rateBits.map .single, (Variable.rateBits.setting? numberOfValue lookup).map .single,
      stored.rateBits] base.rateBits
  capability : config.capability = topmost
    [options.simd, Variable.simd.setting? capabilityOfValue lookup, stored.capability]
    base.capability
  hash : config.hash = topmost
    [options.hash, Variable.hash.setting? hashOfValue lookup, stored.hash] base.hash
  capHeight : config.capHeight = topmost
    [options.capHeight, Variable.capHeight.setting? numberOfValue lookup, stored.capHeight]
    base.capHeight
  padding : config.padding = topmost [options.padding, stored.padding] base.padding

section Settled

variable {options : Options} {lookup : String → Option String} {stored : Overrides}
  {base config config' : RunConfig}

/-- Every setting is settled, so there is only one configuration. -/
theorem Settled.unique (h : Settled options lookup stored base config)
    (h' : Settled options lookup stored base config') : config = config' := by
  cases config
  cases config'
  rw [RunConfig.mk.injEq]
  exact ⟨h.rowsLog2.trans h'.rowsLog2.symm, h.columns.trans h'.columns.symm,
    h.degreeLog2.trans h'.degreeLog2.symm, h.extendedLog2.trans h'.extendedLog2.symm,
    h.rateBits.trans h'.rateBits.symm, h.capability.trans h'.capability.symm,
    h.hash.trans h'.hash.symm, h.capHeight.trans h'.capHeight.symm,
    h.padding.trans h'.padding.symm⟩

/-- Applying the layers from the bottom up settles every setting. -/
theorem settled_apply (options : Options) (lookup : String → Option String) (stored : Overrides)
    (base : RunConfig) : Settled options lookup stored base
      (options.overrides.apply ((Overrides.surrounding lookup).apply (stored.apply base))) := by
  refine ⟨?_, ?_, ?_, ?_, ?_, ?_, ?_, ?_, ?_⟩ <;> simp only [topmost_cons] <;> rfl

end Settled

/-- The layer that the file holds, which is empty if no file is named. -/
inductive StoredLayer : Option ConfigFile → Overrides → Prop
  | none : StoredLayer none .empty
  | some {file : ConfigFile} {stored : Overrides} (hread : Overrides.ofFile file = .ok stored) :
      StoredLayer (some file) stored

/-- How a resolution ends: the file cannot be read, or the value of a variable cannot
    be used, or the configuration that the layers settle is refused or accepted. -/
inductive ResolutionEnds (profile : Profile) (file : Option ConfigFile)
    (lookup : String → Option String) (options : Options) : Except ConfigError RunConfig → Prop
  | fileRefused {named : ConfigFile} {e : ConfigError} (hfile : file = some named)
      (hrefused : Overrides.ofFile named = .error e) :
      ResolutionEnds profile file lookup options (.error e)
  | variableRefused {stored : Overrides} {key : Variable} {value : String}
      {refusal : ValueRefusal} (hstored : StoredLayer file stored)
      (hfirst : FirstRefused lookup key value refusal) :
      ResolutionEnds profile file lookup options (.error (.invalidVariable key value refusal))
  | invalid {stored : Overrides} {config : RunConfig} {e : ConfigError}
      (hstored : StoredLayer file stored) (husable : AllUsable lookup)
      (hsettled : Settled options lookup stored profile.config config)
      (hinvalid : config.validate = .error e) :
      ResolutionEnds profile file lookup options (.error e)
  | accepted {stored : Overrides} {config : RunConfig}
      (hstored : StoredLayer file stored) (husable : AllUsable lookup)
      (hsettled : Settled options lookup stored profile.config config)
      (hvalid : config.validate = .ok ()) :
      ResolutionEnds profile file lookup options (.ok config)

namespace RunConfig

variable {profile : Profile} {file : Option ConfigFile} {lookup : String → Option String}
  {options : Options}

theorem storedLayer_iff {stored : Overrides} :
    file.elim (.ok .empty) Overrides.ofFile = .ok stored ↔ StoredLayer file stored := by
  cases file with
  | none =>
      constructor
      · rintro ⟨⟩
        exact .none
      · rintro ⟨⟩
        rfl
  | some named =>
      constructor
      · exact .some
      · rintro ⟨⟩
        assumption

/-- With all layers read, the configuration that they settle is validated. -/
theorem resolve_of_settled {stored : Overrides} {config : RunConfig}
    (hstored : StoredLayer file stored) (husable : AllUsable lookup)
    (hsettled : Settled options lookup stored profile.config config) :
    resolve profile file lookup options.overrides = config.validate >>= fun _ => .ok config := by
  rw [resolve_eq, storedLayer_iff.mpr hstored, ok_bind, ofEnvironment_of_allUsable husable, ok_bind,
    ← hsettled.unique (settled_apply options lookup stored profile.config)]

theorem resolve_of_firstRefused {stored : Overrides} {key : Variable} {value : String}
    {refusal : ValueRefusal} (hstored : StoredLayer file stored)
    (hfirst : FirstRefused lookup key value refusal) :
    resolve profile file lookup options.overrides =
      .error (.invalidVariable key value refusal) := by
  rw [resolve_eq, storedLayer_iff.mpr hstored, ok_bind, ofEnvironment_of_firstRefused hfirst]
  rfl

theorem resolve_of_fileRefused {named : ConfigFile} {e : ConfigError}
    (hrefused : Overrides.ofFile named = .error e) :
    resolve profile (some named) lookup options.overrides = .error e := by
  rw [resolve_eq, Option.elim_some, hrefused]
  rfl

theorem resolutionEnds_resolve (profile : Profile) (file : Option ConfigFile)
    (lookup : String → Option String) (options : Options) :
    ResolutionEnds profile file lookup options
      (resolve profile file lookup options.overrides) := by
  cases hread : file.elim (.ok .empty) Overrides.ofFile with
  | error e =>
      cases file with
      | none => cases hread
      | some named =>
          rw [resolve_of_fileRefused hread]
          exact .fileRefused rfl hread
  | ok stored =>
      have hstored := storedLayer_iff.mp hread
      rcases allUsable_or_firstRefused lookup with husable | ⟨key, value, refusal, hfirst⟩
      · have hsettled := settled_apply options lookup stored profile.config
        rw [resolve_of_settled hstored husable hsettled]
        cases hvalid : RunConfig.validate _ with
        | ok _ => exact .accepted hstored husable hsettled hvalid
        | error e => exact .invalid hstored husable hsettled hvalid
      · rw [resolve_of_firstRefused hstored hfirst]
        exact .variableRefused hstored hfirst

theorem resolve_eq_of_resolutionEnds {result : Except ConfigError RunConfig}
    (h : ResolutionEnds profile file lookup options result) :
    resolve profile file lookup options.overrides = result := by
  cases h with
  | fileRefused hfile hrefused => rw [hfile, resolve_of_fileRefused hrefused]
  | variableRefused hstored hfirst => exact resolve_of_firstRefused hstored hfirst
  | invalid hstored husable hsettled hinvalid =>
      rw [resolve_of_settled hstored husable hsettled, hinvalid]
      rfl
  | accepted hstored husable hsettled hvalid =>
      rw [resolve_of_settled hstored husable hsettled, hvalid]
      rfl

/-- Whatever the profile, the file, the environment and the options, a resolution ends
    in one of these ways and says which. If all layers can be read, each setting is
    that of the topmost layer that has one, and the configuration is the result unless
    validation refuses it. If not, the result is the error of the file, and only with a
    file that can be read that of the first variable whose value cannot be used. -/
theorem resolve_eq_iff_resolutionEnds (profile : Profile) (file : Option ConfigFile)
    (lookup : String → Option String) (options : Options)
    (result : Except ConfigError RunConfig) :
    resolve profile file lookup options.overrides = result ↔
      ResolutionEnds profile file lookup options result := by
  constructor
  · rintro rfl
    exact resolutionEnds_resolve profile file lookup options
  · exact resolve_eq_of_resolutionEnds

end RunConfig

end TraceCommit
