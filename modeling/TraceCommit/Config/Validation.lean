import TraceCommit.Config.Error
import TraceCommit.Config.Profile
import TraceCommit.Transform.Domain

/-!
# Validation

A configuration is refused when no run could complete with it. Sizes are
compared with the field's largest domain before anything is computed from
them, and sums of logarithms stop at the largest word instead of wrapping, so
no size is too large to be refused.

## Main definitions

* `saturatingAdd`: Addition that stops at the largest word.
* `RunConfig.validate`: The first reason to refuse a configuration.
-/

namespace TraceCommit

/-- The sum of two words, or the largest word if the sum does not fit. -/
def saturatingAdd (a b : UInt64) : UInt64 :=
  if a.toNat + b.toNat < UInt64.size then a + b else UInt64.ofNat (UInt64.size - 1)

namespace RunConfig

/-- The ranges, in the order in which they are checked. -/
def ranges (c : RunConfig) : List (RangeSetting × InclusiveRange) :=
  [(.degreeLog2, c.degreeLog2), (.extendedLog2, c.extendedLog2), (.rateBits, c.rateBits)]

/-- The logarithms of the largest domains, in the order in which they are
    checked. -/
def domains (c : RunConfig) : List (DomainBound × UInt64) :=
  [(.trace, saturatingAdd c.rowsLog2 c.rateBits.max),
    (.degree, saturatingAdd c.degreeLog2.max c.rateBits.max),
    (.extended, c.extendedLog2.max)]

/-- Accepts a configuration, or gives the first reason to refuse it. -/
def validate (c : RunConfig) : Except ConfigError Unit := do
  if c.columns = 0 then throw .zeroColumns
  c.ranges.forM fun (setting, range) =>
    if range.isEmpty then throw (.emptyRange setting range.min range.max) else pure ()
  if c.rateBits.min = 0 then throw .zeroRateBits
  c.domains.forM fun (bound, log2Size) =>
    if maxLog2Size < log2Size.toNat then throw (.domainTooLarge bound log2Size maxLog2Size)
    else pure ()
  let height ← Checked.add c.rowsLog2 c.rateBits.min
  if height < c.capHeight then throw (.capHeightTooLarge c.capHeight height)

end RunConfig

end TraceCommit
