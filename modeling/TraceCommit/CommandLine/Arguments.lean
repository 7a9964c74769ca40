import TraceCommit.Config.Overrides
import TraceCommit.Text.Name
import TraceCommit.Text.Number

/-!
# Arguments

The command line is one of three commands with options around it. Options may
stand before the command or behind it; given on both sides, the one behind
counts. On one side an option must not repeat. An option's value is the next
argument, or what stands behind an equals sign; a next argument that looks like
an option is none. The seed belongs to one command and stands behind it.

## Main definitions

* `Command`: What to do.
* `Options`: The options of one side.
* `Arguments`: A command line that was understood.
* `Arguments.parse?`: Reads a command line.
-/

namespace TraceCommit

/-- What to do. -/
inductive Command
  /-- Commit to the trace and report. -/
  | prove
  /-- Time extensions of random polynomials. -/
  | sweep (seed : UInt64)
  /-- Show the configuration. -/
  | config
deriving DecidableEq, Repr

/-- The names of commands. -/
inductive CommandName
  | prove
  | sweep
  | config
deriving DecidableEq, Repr

namespace CommandName

/-- All names. -/
def all : List CommandName := [.prove, .sweep, .config]

/-- How a name is spelled. -/
def name : CommandName → String
  | .prove => "prove"
  | .sweep => "lde-sweep"
  | .config => "config"

end CommandName

/-- The options that take a value. -/
inductive OptionName
  | profile
  | config
  | simd
  | hash
  | rowsLog2
  | columns
  | rateBits
  | capHeight
  | padding
  | seed
deriving DecidableEq, Repr

namespace OptionName

/-- The options that every command has. -/
def shared : List OptionName :=
  [.profile, .config, .simd, .hash, .rowsLog2, .columns, .rateBits, .capHeight, .padding]

/-- The options of a command. -/
def ofCommand : CommandName → List OptionName
  | .sweep => .seed :: shared
  | _ => shared

/-- How an option is spelled. -/
def name : OptionName → String
  | .profile => "--profile"
  | .config => "--config"
  | .simd => "--simd"
  | .hash => "--hash"
  | .rowsLog2 => "--rows-log2"
  | .columns => "--columns"
  | .rateBits => "--rate-bits"
  | .capHeight => "--cap-height"
  | .padding => "--padding"
  | .seed => "--seed"

end OptionName

/-- How the one option without a value is spelled. -/
def sequentialName : String := "--sequential"

/-- The options of one side of the command. -/
structure Options where
  /-- The profile to start from. -/
  profile : Option Profile
  /-- The path of a file with overrides. -/
  config : Option String
  /-- The width of batch arithmetic. -/
  simd : Option Capability
  /-- The hash of the commitment. -/
  hash : Option HashFamily
  /-- The logarithm of the number of rows. -/
  rowsLog2 : Option UInt64
  /-- The number of columns. -/
  columns : Option UInt64
  /-- A single rate. -/
  rateBits : Option UInt64
  /-- The height of the cap. -/
  capHeight : Option UInt64
  /-- What is done about odd numbers of leaves. -/
  padding : Option PaddingPolicy
  /-- The seed of a sweep. -/
  seed : Option UInt64
  /-- Whether kernels must not fork. -/
  sequential : Bool
deriving DecidableEq, Repr

namespace Options

/-- No options. -/
def empty : Options :=
  ⟨none, none, none, none, none, none, none, none, none, none, false⟩

/-- A value for a slot that is still free. -/
def fill? {α : Type} (slot value : Option α) : Option (Option α) :=
  match slot, value with
  | none, some a => some (some a)
  | _, _ => none

/-- The word that a value spells. -/
def word? (value : String) : Option UInt64 := (Text.wordOf value).toOption

/-- The options with one more, unless it is there already or its value is not
    one. -/
def set? (o : Options) (option : OptionName) (value : String) : Option Options :=
  match option with
  | .profile =>
    (fill? o.profile (Text.named? Profile.all Profile.name value)).map ({ o with profile := · })
  | .config =>
    (fill? o.config (if value.isEmpty then none else some value)).map ({ o with config := · })
  | .simd =>
    (fill? o.simd (Text.named? Capability.all Capability.name value)).map ({ o with simd := · })
  | .hash =>
    (fill? o.hash (Text.named? HashFamily.all HashFamily.name value)).map ({ o with hash := · })
  | .rowsLog2 => (fill? o.rowsLog2 (word? value)).map ({ o with rowsLog2 := · })
  | .columns => (fill? o.columns (word? value)).map ({ o with columns := · })
  | .rateBits => (fill? o.rateBits (word? value)).map ({ o with rateBits := · })
  | .capHeight => (fill? o.capHeight (word? value)).map ({ o with capHeight := · })
  | .padding =>
    (fill? o.padding (Text.named? PaddingPolicy.all PaddingPolicy.name value)).map
      ({ o with padding := · })
  | .seed => (fill? o.seed (word? value)).map ({ o with seed := · })

/-- The options of two sides; those of the second count. -/
def merge (before behind : Options) : Options where
  profile := behind.profile.or before.profile
  config := behind.config.or before.config
  simd := behind.simd.or before.simd
  hash := behind.hash.or before.hash
  rowsLog2 := behind.rowsLog2.or before.rowsLog2
  columns := behind.columns.or before.columns
  rateBits := behind.rateBits.or before.rateBits
  capHeight := behind.capHeight.or before.capHeight
  padding := behind.padding.or before.padding
  seed := behind.seed.or before.seed
  sequential := behind.sequential || before.sequential

/-- The layer that the options make. -/
def overrides (o : Options) : Overrides :=
  { Overrides.empty with
    rowsLog2 := o.rowsLog2, columns := o.columns, rateBits := o.rateBits.map .single,
    capability := o.simd, hash := o.hash, capHeight := o.capHeight, padding := o.padding }

end Options

/-- An option cut at its first equals sign: what stands before it, and what
    behind it, if there is one. -/
def splitOption (argument : String) : String × Option String :=
  let chars := argument.toList
  let before := String.ofList (chars.takeWhile (· != '='))
  match chars.dropWhile (· != '=') with
  | [] => (before, none)
  | _ :: behind => (before, some (String.ofList behind))

/-- Whether an argument looks like an option and so cannot be the value of one. A
    lone dash does not. -/
def looksLikeOption (argument : String) : Bool :=
  match argument.toList with
  | '-' :: _ :: _ => true
  | _ => false

/-- Reads options as far as they go. Gives them, and the arguments behind them. The
    first argument tells which option the next argument is the value of, if it is
    one. -/
def takeOptions? (known : List OptionName) :
    Option OptionName → Options → List String → Option (Options × List String)
  | none, o, [] => some (o, [])
  | some _, _, [] => none
  | some option, o, value :: rest =>
    if looksLikeOption value then none
    else do takeOptions? known none (← o.set? option value) rest
  | none, o, argument :: rest =>
    if looksLikeOption argument && argument != "--" then
      let (name, attached) := splitOption argument
      if name == sequentialName then
        if attached.isSome || o.sequential then none
        else takeOptions? known none { o with sequential := true } rest
      else
        match Text.named? known OptionName.name name, attached with
        | none, _ => none
        | some option, some value => do takeOptions? known none (← o.set? option value) rest
        | some option, none => takeOptions? known (some option) o rest
    else some (o, argument :: rest)

/-- A command line that was understood. -/
structure Arguments where
  /-- The profile to start from. -/
  profile : Profile
  /-- The path of a file with overrides. -/
  config : Option String
  /-- The settings of the command line. -/
  overrides : Overrides
  /-- Whether kernels must not fork. -/
  sequential : Bool
  /-- What to do. -/
  command : Command
deriving DecidableEq, Repr

/-- Reads a command line. Behind the command and its options nothing is left but,
    at most, the sign that ends options. -/
def Arguments.parse? (arguments : List String) : Option Arguments := do
  let (before, rest) ← takeOptions? OptionName.shared none .empty arguments
  match rest with
  | [] => none
  | word :: rest =>
    let command ← Text.named? CommandName.all CommandName.name word
    let (behind, rest) ← takeOptions? (OptionName.ofCommand command) none .empty rest
    if rest != [] && rest != ["--"] then none
    else
      let o := before.merge behind
      return {
        profile := o.profile.getD .bench
        config := o.config
        overrides := o.overrides
        sequential := o.sequential
        command :=
          match command with
          | .prove => .prove
          | .sweep => .sweep (o.seed.getD 0)
          | .config => .config }

end TraceCommit
