import TraceCommit.Config.Document
import TraceCommit.Config.Environment
import TraceCommit.Config.Validation

/-!
# Layers of Settings

A run starts from a profile. Over it lie, from the bottom up, the settings of
a file if one is named, those of the environment, and those of the command
line. What comes out is validated once, at the end.

## Main definitions

* `ConfigFile`: A named file and what came of reading it.
* `Overrides.ofDocument`, `Overrides.ofFile`: The layer that a file makes.
* `RunConfig.resolve`: The configuration of a run.
-/

namespace TraceCommit

/-- A file that was named, and its text or the reason why it has none. -/
structure ConfigFile where
  /-- The name given. -/
  path : String
  /-- The text. -/
  text : Except FileFailure String

/-- The layer that a document holds. -/
def Overrides.ofDocument (text : String) : Except ConfigError Overrides :=
  match Overrides.codec.ofText? text with
  | some layer => .ok layer
  | none => .error .malformedDocument

/-- The layer that a file holds. -/
def Overrides.ofFile (file : ConfigFile) : Except ConfigError Overrides :=
  match file.text with
  | .ok text => Overrides.ofDocument text
  | .error failure => .error (.unreadableFile file.path failure)

/-- The configuration of a run. The layers are read from the bottom up, and the
    first one that cannot be read is reported. -/
def RunConfig.resolve (profile : Profile) (file : Option ConfigFile)
    (lookup : String → Option String) (flags : Overrides) : Except ConfigError RunConfig := do
  let stored ← match file with
    | some file => Overrides.ofFile file
    | none => pure .empty
  let surrounding ← Overrides.ofEnvironment lookup
  -- What is applied last wins.
  let config := flags.apply (surrounding.apply (stored.apply profile.config))
  config.validate
  return config

end TraceCommit
