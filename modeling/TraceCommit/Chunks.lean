/-!
# Chunks

A sequence cut into consecutive pieces of one size, of which only the last may
be shorter.

## Main definitions

* `chunksOf`: The pieces of a sequence.
-/

namespace TraceCommit

variable {α : Type}

/-- The consecutive pieces of `size` items; the last holds what remains. -/
def chunksOf (size : Nat) (xs : Array α) : Array (Array α) :=
  Array.ofFn (n := (xs.size + size - 1) / size) fun i =>
    xs.extract (i * size) ((i + 1) * size)

end TraceCommit
