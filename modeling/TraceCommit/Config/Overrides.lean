import TraceCommit.Config.Profile

/-!
# Overrides

A layer over a configuration: the settings it contains replace those below,
and all others stay as they are.

## Main definitions

* `Overrides`: A partial configuration.
* `Overrides.apply`: A configuration with a layer over it.
-/

namespace TraceCommit

/-- A partial configuration. -/
structure Overrides where
  /-- The logarithm of the number of rows. -/
  rowsLog2 : Option UInt64
  /-- The number of columns. -/
  columns : Option UInt64
  /-- The logarithms of the polynomial sizes of a sweep. -/
  degreeLog2 : Option InclusiveRange
  /-- The logarithms of the extended sizes of a sweep. -/
  extendedLog2 : Option InclusiveRange
  /-- The blow-up rates, as logarithms. -/
  rateBits : Option InclusiveRange
  /-- The width of batch arithmetic. -/
  capability : Option Capability
  /-- The hash of the commitment. -/
  hash : Option HashFamily
  /-- The height of the cap of the commitment. -/
  capHeight : Option UInt64
  /-- What is done about odd numbers of leaves. -/
  padding : Option PaddingPolicy
deriving DecidableEq, Repr

namespace Overrides

/-- The layer without any settings. -/
def empty : Overrides := ⟨none, none, none, none, none, none, none, none, none⟩

/-- The configuration with the layer's settings in place of its own. -/
def apply (o : Overrides) (base : RunConfig) : RunConfig where
  rowsLog2 := o.rowsLog2.getD base.rowsLog2
  columns := o.columns.getD base.columns
  degreeLog2 := o.degreeLog2.getD base.degreeLog2
  extendedLog2 := o.extendedLog2.getD base.extendedLog2
  rateBits := o.rateBits.getD base.rateBits
  capability := o.capability.getD base.capability
  hash := o.hash.getD base.hash
  capHeight := o.capHeight.getD base.capHeight
  padding := o.padding.getD base.padding

end Overrides

end TraceCommit
