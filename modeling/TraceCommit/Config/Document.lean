import TraceCommit.Config.Overrides

/-!
# Configurations as Documents

A configuration and a layer of overrides are records with the same nine
fields. A layer leaves out what it does not set, and is the only record here
that refuses members it does not know: a misspelt setting must not go
unnoticed.

## Main definitions

* `Profile.codec`, `Capability.codec`, `HashFamily.codec`,
  `PaddingPolicy.codec`: Choices by name.
* `MerkleConfig.codec`: The shape of a tree.
* `RunConfig.codec`, `Overrides.codec`: The two records.
-/

namespace TraceCommit

open Json

/-- A profile by its name. -/
def Profile.codec : Codec Profile := .choice Profile.all Profile.name

/-- A capability by its name. -/
def Capability.codec : Codec Capability := .choice Capability.all Capability.name

/-- A hash by its name. -/
def HashFamily.codec : Codec HashFamily := .choice HashFamily.all HashFamily.name

/-- A padding policy by its name. -/
def PaddingPolicy.codec : Codec PaddingPolicy := .choice PaddingPolicy.all PaddingPolicy.name

/-- The shape of a tree. -/
def MerkleConfig.codec : Codec MerkleConfig where
  write c := .record [("cap_height", .word c.capHeight),
    ("padding", PaddingPolicy.codec.write c.padding)]
  read? v := do
    match ← v.record? ["cap_height", "padding"] false with
    | [capHeight, padding] =>
      return ⟨← required Value.word? capHeight, ← required PaddingPolicy.codec.read? padding⟩
    | _ => none

/-- The names of the settings, in the order in which they are written. -/
def settingNames : List String :=
  ["rows_log2", "columns", "degree_log2", "lde_degree_log2", "rate_bits", "capability", "hash",
    "cap_height", "padding"]

/-- A complete configuration. -/
def RunConfig.codec : Codec RunConfig where
  write c := .record (settingNames.zip [.word c.rowsLog2, .word c.columns,
    InclusiveRange.codec.write c.degreeLog2, InclusiveRange.codec.write c.extendedLog2,
    InclusiveRange.codec.write c.rateBits, Capability.codec.write c.capability,
    HashFamily.codec.write c.hash, .word c.capHeight, PaddingPolicy.codec.write c.padding])
  read? v := do
    match ← v.record? settingNames false with
    | [rowsLog2, columns, degreeLog2, extendedLog2, rateBits, capability, hash, capHeight,
        padding] =>
      return {
        rowsLog2 := ← required Value.word? rowsLog2
        columns := ← required Value.word? columns
        degreeLog2 := ← required InclusiveRange.codec.read? degreeLog2
        extendedLog2 := ← required InclusiveRange.codec.read? extendedLog2
        rateBits := ← required InclusiveRange.codec.read? rateBits
        capability := ← required Capability.codec.read? capability
        hash := ← required HashFamily.codec.read? hash
        capHeight := ← required Value.word? capHeight
        padding := ← required PaddingPolicy.codec.read? padding }
    | _ => none

/-- A layer, without the settings it does not contain. -/
def Overrides.codec : Codec Overrides where
  write o := .record ((settingNames.zip [o.rowsLog2.map .word, o.columns.map .word,
    o.degreeLog2.map InclusiveRange.codec.write, o.extendedLog2.map InclusiveRange.codec.write,
    o.rateBits.map InclusiveRange.codec.write, o.capability.map Capability.codec.write,
    o.hash.map HashFamily.codec.write, o.capHeight.map .word,
    o.padding.map PaddingPolicy.codec.write]).filterMap fun (name, value) =>
      value.map fun value => (name, value))
  read? v := do
    match ← v.record? settingNames true with
    | [rowsLog2, columns, degreeLog2, extendedLog2, rateBits, capability, hash, capHeight,
        padding] =>
      return {
        rowsLog2 := ← optional Value.word? rowsLog2
        columns := ← optional Value.word? columns
        degreeLog2 := ← optional InclusiveRange.codec.read? degreeLog2
        extendedLog2 := ← optional InclusiveRange.codec.read? extendedLog2
        rateBits := ← optional InclusiveRange.codec.read? rateBits
        capability := ← optional Capability.codec.read? capability
        hash := ← optional HashFamily.codec.read? hash
        capHeight := ← optional Value.word? capHeight
        padding := ← optional PaddingPolicy.codec.read? padding }
    | _ => none

end TraceCommit
