import TraceCommit.Field.Quartic
import TraceCommit.Storage

/-!
# Sampling Elements

Uniform elements from a source of 64-bit words by rejection: a word at or
above the modulus is thrown away, and the next one is looked at. Nothing bounds
how many are thrown away in a row. A draw from a source that never comes to a
canonical word has no end, and so no result, not even an error.

Where the words come from is left open. A source is known by its states, and one
that can be seeded also by the states that it starts from.

## Main definitions

* `WordSource`, `SeededSource`: A state that yields words, and where it starts.
* `WordSource.replay`: A recorded list of words, then zeros.
* `WordSource.element`, `WordSource.elements`: One element, or several.
* `WordSource.quartic`, `WordSource.quartics`: The same for the extension.
-/

namespace TraceCommit

/-- A source of words: each state yields a word and the next state. -/
structure WordSource (σ : Type) where
  /-- The word of a state and the state after it. -/
  next : σ → UInt64 × σ

/-- A source of words that starts where a seed tells it to. -/
structure SeededSource (σ : Type) extends WordSource σ where
  /-- The first state. -/
  ofSeed : UInt64 → σ

/-- A recorded list of words, zeros after it, and the number of words drawn. -/
structure Replay where
  /-- The words still to come. -/
  words : List UInt64
  /-- The words drawn so far. -/
  drawn : Nat

/-- Replays a recording. Past its end comes zero, which is never rejected. -/
def WordSource.replay : WordSource Replay where
  next r :=
    match r.words with
    | [] => (0, ⟨[], r.drawn + 1⟩)
    | w :: rest => (w, ⟨rest, r.drawn + 1⟩)

variable {σ : Type}

/-- One uniform element: the first canonical word, if there is one. -/
def WordSource.element (source : WordSource σ) (s : σ) : Option (Element × σ) :=
  let word := source.next s
  if h : word.1 < modulus then some (⟨word.1, h⟩, word.2) else source |>.element word.2
partial_fixpoint

/-- Draws `count` values one after another and puts them behind others. -/
def drawMany {α : Type} (draw : σ → Option (α × σ)) :
    (count : Nat) → Array α → σ → Option (Array α × σ)
  | 0, values, s => some (values, s)
  | count + 1, values, s => do
    let (value, s) ← draw s
    drawMany draw count (values.push value) s

/-- Draws `count` values of some size, if there is room for them. -/
def drawInto {α : Type} (itemBytes : Nat) (draw : σ → Option (α × σ)) (count : Nat) (s : σ) :
    Except Violation (Option (Array α × σ)) := do
  requireRoom itemBytes count
  return drawMany draw count (Array.emptyWithCapacity count) s

namespace WordSource

/-- `count` uniform elements. -/
def elements (source : WordSource σ) (count : Nat) (s : σ) :
    Except Violation (Option (Array Element × σ)) :=
  drawInto Element.byteCount source.element count s

/-- One uniform extension element, constant coefficient first. -/
def quartic (source : WordSource σ) (s : σ) : Option (Quartic × σ) := do
  let (c0, s) ← source.element s
  let (c1, s) ← source.element s
  let (c2, s) ← source.element s
  let (c3, s) ← source.element s
  return (⟨c0, c1, c2, c3⟩, s)

/-- `count` uniform extension elements. -/
def quartics (source : WordSource σ) (count : Nat) (s : σ) :
    Except Violation (Option (Array Quartic × σ)) :=
  drawInto (Quartic.degree * Element.byteCount) source.quartic count s

end WordSource

end TraceCommit
