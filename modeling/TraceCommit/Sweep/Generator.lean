import TraceCommit.Field.Sampling

/-!
# A Seeded Source of Words

A fast generator for test data: four words of state that are shifted, rotated
and combined by exclusive or, with a sum as output. The state is filled from a
single seed by a second generator that adds a constant and mixes the bits of
the sum, so that similar seeds give unrelated states.

## Main definitions

* `Generator`: The four words of state.
* `Generator.ofSeed`: The state of a seed.
* `SeededSource.generator`: The source.
-/

namespace TraceCommit

/-- The state of the generator. -/
structure Generator where
  /-- The first word. -/
  s0 : UInt64
  /-- The second word. -/
  s1 : UInt64
  /-- The third word. -/
  s2 : UInt64
  /-- The fourth word. -/
  s3 : UInt64
deriving DecidableEq, Repr

/-- A word rotated left. -/
def rotateWord (w : UInt64) (places : UInt64) : UInt64 :=
  (w <<< places) ||| (w >>> (64 - places))

namespace Generator

/-- The mixed bits of a word. -/
def mix (w : UInt64) : UInt64 :=
  let w := (w ^^^ (w >>> 30)) * 0xbf58476d1ce4e5b9
  let w := (w ^^^ (w >>> 27)) * 0x94d049bb133111eb
  w ^^^ (w >>> 31)

/-- What is added to a seed from word to word. -/
def increment : UInt64 := 0x9e3779b97f4a7c15

/-- The state of a seed. -/
def ofSeed (seed : UInt64) : Generator :=
  ⟨mix (seed + increment), mix (seed + 2 * increment), mix (seed + 3 * increment),
    mix (seed + 4 * increment)⟩

/-- The word of a state, and the next state. -/
def next (g : Generator) : UInt64 × Generator :=
  let output := rotateWord (g.s0 + g.s3) 23 + g.s0
  let s2 := g.s2 ^^^ g.s0
  let s3 := g.s3 ^^^ g.s1
  (output, ⟨g.s0 ^^^ s3, g.s1 ^^^ s2, s2 ^^^ (g.s1 <<< 17), rotateWord s3 45⟩)

end Generator

/-- The generator as a source of words. -/
def SeededSource.generator : SeededSource Generator where
  next := Generator.next
  ofSeed := Generator.ofSeed

end TraceCommit
