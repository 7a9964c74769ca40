import TraceCommit.Transform.Domain

/-!
# Root Tables

The twiddle factors of every butterfly layer. Layer `k` works on blocks of
`2 ^ k` elements and needs the first `2 ^ (k - 1)` powers of the primitive root
of that order. A layer does not depend on the size of the whole transform, so
the table of a large domain serves every smaller one.

Tables are shared: a `RootCache` keeps each table it has built and hands it
out again for the same size.

## Main definitions

* `RootTable`: The twiddles of all layers.
* `RootTable.build`: The table for domains up to a size.
* `RootCache.request`: A table, from the cache or newly built.
-/

namespace TraceCommit

/-- The twiddle factors of the layers `1` to `log2Size`. -/
structure RootTable where
  /-- The logarithm of the largest domain served. -/
  log2Size : Nat
  /-- The twiddles, layer 1 first. -/
  layers : Array (Array Element)
deriving DecidableEq

namespace RootTable

/-- The twiddles of layer `k`: half as many powers of the primitive root of
    order `2 ^ k` as a block has elements. -/
def buildLayer (k : Nat) : Except FieldError (Array Element) := do
  return (← Element.rootOfUnity k).powers (1 <<< (k - 1))

/-- The table for domains of up to `2 ^ log2Size` points. -/
def build (log2Size : Nat) : Except TransformError RootTable := do
  if maxLog2Size < log2Size then throw (.domainTooLarge log2Size maxLog2Size)
  let layers ← (List.range' 1 log2Size).mapM fun k => liftM (buildLayer k)
  return ⟨log2Size, layers.toArray⟩

/-- The twiddles of layer `k`, counted from one. -/
def layer (t : RootTable) (k : Nat) : Except Violation (Array Element) :=
  match k with
  | 0 => .error .overflow
  | i + 1 =>
    match t.layers[i]? with
    | some twiddles => .ok twiddles
    | none => .error .outOfRange

/-- Whether the table serves domains of `2 ^ log2Size` points. -/
def covers (t : RootTable) (log2Size : Nat) : Bool := decide (log2Size ≤ t.log2Size)

end RootTable

/-- The tables built so far, by the logarithm of their size. -/
structure RootCache where
  /-- The tables, newest first. -/
  tables : List (Nat × RootTable)

namespace RootCache

/-- A cache that holds nothing. -/
def empty : RootCache := ⟨[]⟩

/-- The table of a size. A new table is kept; an error leaves the cache as it
    was. -/
def request (cache : RootCache) (log2Size : Nat) :
    Except TransformError RootTable × RootCache :=
  match cache.tables.lookup log2Size with
  | some table => (.ok table, cache)
  | none =>
    match RootTable.build log2Size with
    | .ok table => (.ok table, ⟨(log2Size, table) :: cache.tables⟩)
    | .error e => (.error e, cache)

end RootCache

end TraceCommit
