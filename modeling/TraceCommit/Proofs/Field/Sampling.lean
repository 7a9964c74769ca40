import TraceCommit.Field.Sampling

/-!
# Draws That Have an End

A draw by rejection has an end if a canonical word comes, and whether one comes is
up to the source. What can be said of every source is how many canonical words a
draw needs: one for an element, and as many as there are elements for several. With
fewer it has no end, and with more, those that it does not need are left to what is
drawn next.

So the draws of a whole run need as many canonical words as they need one by one,
however many words are thrown away between them.

## Main definitions

* `WordSource.words`: The words of a state.
* `WordSource.Supplies`: So many of them are canonical.
* `WordSource.Uses`: A draw that has an end if they are, and leaves the others.

## Theorems

* `WordSource.Uses.trans`, `WordSource.Uses.of_none`, `WordSource.Uses.bind`: One draw
  after another.
* `WordSource.element_uses`, `WordSource.drawMany_uses`: One element, and several.
* `WordSource.exists_elements`: As many elements as are asked for.
-/

namespace TraceCommit

variable {σ α β : Type} {source : WordSource σ} {s : σ} {n k : Nat}

namespace WordSource

/-- The first `n` words of a state. -/
def words (source : WordSource σ) : (n : Nat) → σ → List UInt64
  | 0, _ => []
  | n + 1, s => (source.next s).1 :: words source n (source.next s).2

/-- At least `count` words of the state are canonical. They need not come one right
    after another. -/
def Supplies (source : WordSource σ) (count : Nat) (s : σ) : Prop :=
  ∃ n, count ≤ (source.words n s).countP (· < modulus)

theorem countP_words_of_canonical (h : (source.next s).1 < modulus) :
    (source.words (n + 1) s).countP (· < modulus) =
      (source.words n (source.next s).2).countP (· < modulus) + 1 :=
  List.countP_cons_of_pos (decide_eq_true h)

theorem countP_words_of_not_canonical (h : ¬ (source.next s).1 < modulus) :
    (source.words (n + 1) s).countP (· < modulus) =
      (source.words n (source.next s).2).countP (· < modulus) :=
  List.countP_cons_of_neg (mt of_decide_eq_true h)

theorem supplies_zero : source.Supplies 0 s := ⟨0, Nat.zero_le _⟩

theorem Supplies.mono (h : source.Supplies n s) (hle : k ≤ n) : source.Supplies k s := by
  rcases h with ⟨length, hcount⟩
  exact ⟨length, Nat.le_trans hle hcount⟩

/-- A canonical word is one of those that are asked for. -/
theorem supplies_of_canonical (h : (source.next s).1 < modulus) :
    source.Supplies (n + 1) s ↔ source.Supplies n (source.next s).2 := by
  constructor
  · rintro ⟨length, hle⟩
    cases length with
    | zero => exact absurd hle (Nat.not_succ_le_zero n)
    | succ length =>
        rw [countP_words_of_canonical h] at hle
        exact ⟨length, Nat.le_of_succ_le_succ hle⟩
  · rintro ⟨length, hle⟩
    refine ⟨length + 1, ?_⟩
    rw [countP_words_of_canonical h]
    exact Nat.succ_le_succ hle

/-- Any other word is not. -/
theorem supplies_of_not_canonical (h : ¬ (source.next s).1 < modulus) :
    source.Supplies n s ↔ source.Supplies n (source.next s).2 := by
  constructor
  · rintro ⟨length, hle⟩
    cases length with
    | zero => exact ⟨0, hle⟩
    | succ length =>
        rw [countP_words_of_not_canonical h] at hle
        exact ⟨length, hle⟩
  · rintro ⟨length, hle⟩
    refine ⟨length + 1, ?_⟩
    rwa [countP_words_of_not_canonical h]

/-- A draw from the state that needs `count` canonical words: it has an end only if
    there are as many, and it leaves all others. -/
def Uses (source : WordSource σ) (count : Nat) (s : σ) : Option (α × σ) → Prop
  | none => ¬ source.Supplies count s
  | some (_, s') => ∀ more, source.Supplies (count + more) s ↔ source.Supplies more s'

namespace Uses

variable {drawn : Option (α × σ)} {a : α} {s' : σ}

/-- There are enough canonical words exactly if the draw has an end. -/
theorem isSome_iff (h : source.Uses n s drawn) : drawn.isSome ↔ source.Supplies n s := by
  cases drawn with
  | none => exact iff_of_false Bool.false_ne_true h
  | some drawn => exact iff_of_true rfl ((h 0).mpr supplies_zero)

theorem zero : source.Uses 0 s (some (a, s)) := fun more => by rw [Nat.zero_add]

/-- What is drawn next needs words of those that have been left. -/
theorem trans {next : Option (β × σ)} (h : source.Uses n s (some (a, s')))
    (hnext : source.Uses k s' next) : source.Uses (n + k) s next := by
  cases next with
  | none => exact fun hsupplies => hnext ((h k).mp hsupplies)
  | some next =>
      intro more
      rw [Nat.add_assoc, h, hnext more]

/-- After a draw without an end, nothing more is drawn. -/
theorem of_none (h : source.Uses n s (none : Option (α × σ))) :
    source.Uses (n + k) s (none : Option (β × σ)) :=
  fun hsupplies => h (hsupplies.mono (Nat.le_add_right n k))

/-- Two draws need the words that they need one by one. -/
theorem bind {next : α × σ → Option (β × σ)} (h : source.Uses n s drawn)
    (hnext : ∀ a s', source.Uses k s' (next (a, s'))) :
    source.Uses (n + k) s (drawn >>= next) := by
  cases drawn with
  | none => exact of_none h
  | some drawn => exact trans h (hnext drawn.1 drawn.2)

end Uses

theorem element_eq (source : WordSource σ) (s : σ) :
    source.element s = if h : (source.next s).1 < modulus
      then some (⟨(source.next s).1, h⟩, (source.next s).2)
      else source.element (source.next s).2 :=
  element.eq_def source s

/-- An element that is drawn has used one canonical word. -/
theorem supplies_of_element {drawn : Element × σ} (h : source.element s = some drawn)
    (more : Nat) : source.Supplies (1 + more) s ↔ source.Supplies more drawn.2 := by
  -- This is so if it is so wherever a draw goes on, for there is no other way to an end.
  refine element.partial_correctness source
    (fun s drawn => source.Supplies (1 + more) s ↔ source.Supplies more drawn.2)
    (fun element ih s drawn h => ?_) s drawn h
  dsimp only at h
  split at h
  · rename_i hcanonical
    rw [← Option.some.inj h, Nat.add_comm]
    exact supplies_of_canonical hcanonical
  · rename_i hcanonical
    exact (supplies_of_not_canonical hcanonical).trans (ih _ _ h)

/-- A draw has an end once a canonical word comes. -/
theorem isSome_element (source : WordSource σ) (n : Nat) : ∀ s,
    1 ≤ (source.words n s).countP (· < modulus) → (source.element s).isSome := by
  induction n with
  | zero => exact fun s h => absurd h (Nat.not_succ_le_zero 0)
  | succ n ih =>
      intro s h
      rw [element_eq]
      split
      · rfl
      · rename_i hcanonical
        refine ih _ ?_
        rwa [countP_words_of_not_canonical hcanonical] at h

/-- An element needs one canonical word. -/
theorem element_uses (source : WordSource σ) (s : σ) : source.Uses 1 s (source.element s) := by
  cases hdrawn : source.element s with
  | none =>
      rintro ⟨n, h⟩
      rw [← Option.not_isSome_iff_eq_none] at hdrawn
      exact hdrawn (isSome_element source n s h)
  | some drawn => exact supplies_of_element hdrawn

/-- Several elements need as many. -/
theorem drawMany_uses (source : WordSource σ) (count : Nat) :
    ∀ values s, source.Uses count s (drawMany source.element count values s) := by
  induction count with
  | zero => exact fun values s => .zero
  | succ count ih =>
      intro values s
      show source.Uses (count + 1) s (source.element s >>= fun drawn =>
        drawMany source.element count (values.push drawn.1) drawn.2)
      rw [Nat.add_comm]
      exact (element_uses source s).bind (fun value s => ih (values.push value) s)

/-- As many values are drawn as are asked for. -/
theorem size_of_drawMany {draw : σ → Option (α × σ)} (count : Nat) :
    ∀ {values : Array α} {s : σ} {drawn : Array α × σ},
      drawMany draw count values s = some drawn → drawn.1.size = values.size + count := by
  induction count with
  | zero =>
      intro values s drawn h
      rw [← Option.some.inj h, Nat.add_zero]
  | succ count ih =>
      intro values s drawn h
      rcases Option.bind_eq_some_iff.mp h with ⟨value, -, hrest⟩
      rw [ih hrest, Array.size_push, Nat.add_right_comm, Nat.add_assoc]

/-- As many elements are drawn as are asked for, if there is room and there are as
    many canonical words. -/
theorem exists_elements (source : WordSource σ) {count : Nat} (s : σ)
    (hroom : Element.byteCount * count ≤ maxSequenceBytes) :
    ∃ drawn, source.elements count s = .ok drawn ∧ source.Uses count s drawn ∧
      ∀ elements s', drawn = some (elements, s') → elements.size = count := by
  refine ⟨drawMany source.element count (Array.emptyWithCapacity count) s, ?_, ?_, ?_⟩
  · unfold elements drawInto
    rw [requireRoom_eq_ok_iff.mpr hroom]
    rfl
  · exact drawMany_uses source count (Array.emptyWithCapacity count) s
  · intro elements s' hdrawn
    exact (size_of_drawMany count hdrawn).trans (Nat.zero_add count)

end WordSource

end TraceCommit
