import Mathlib
import Lowering.Proofs.Indentation

/-! Texts that are laid out line by line: every line stands as far to the right as blocks are open before
it. Lines put together are laid out if each is where the one before it ends, and moving a text by a level
is opening a block around it. -/

namespace Lowering.Layout

/-- Every block that is opened is closed again, and none is closed that is not open. -/
structure Balanced (text : List Char) : Prop where
  closed : text.count '\x7d' = text.count '\x7b'
  opened : ∀ before, before <+: text → before.count '\x7d' ≤ before.count '\x7b'

/-- How many blocks are open behind a text. -/
def openBlocks (text : List Char) : Nat :=
  text.count '\x7b' - text.count '\x7d'

/-- How many levels a line moves that begins with some character behind so many open blocks: one for
each of them, but a line that begins by closing a block stands where that was opened. -/
def level (depth : Nat) (char : Char) : Nat :=
  if char = '\x7d' then depth - 1 else depth

/-- Every line but a bare line break has exactly four spaces for each of its levels before its first
character. -/
def Indented (text : List Char) : Prop :=
  ∀ before line after, lines text = before ++ line :: after → line ≠ ['\n'] →
    ∃ char rest, line = pad (level (openBlocks before.flatten) char) ++ char :: rest ∧ char ≠ ' '

/-- The number of open blocks behind a text, unless it closes more than there are. -/
def blocks (depth : Nat) : List Char → Option Nat
  | [] => some depth
  | char :: rest =>
    if char = '\x7b' then blocks (depth + 1) rest
    else if char = '\x7d' then (if depth = 0 then none else blocks (depth - 1) rest)
    else blocks depth rest

/-- A text of whole lines, laid out from so many open blocks to so many. -/
inductive Laid : Nat → List Char → Nat → Prop where
  | done (depth) : Laid depth [] depth
  | blank {depth text last} (rest : Laid depth text last) : Laid depth ('\n' :: text) last
  | row {depth char line middle text last} (even : '\n' ∉ char :: line) (begins : char ≠ ' ')
    (steps : blocks depth (char :: line) = some middle) (rest : Laid middle text last) :
    Laid depth (pad (level depth char) ++ (char :: line) ++ '\n' :: text) last

variable {depth middle last levels : Nat} {char : Char} {line text first rest : List Char}

section Blocks

theorem blocks_append : blocks depth (first ++ rest) = (blocks depth first).bind fun middle => blocks middle rest := by
  induction first generalizing depth with
  | nil => rfl
  | cons char first ih =>
    simp only [List.cons_append, blocks, ih]
    split
    · rfl
    · split
      · split
        · rfl
        · rfl
      · rfl

theorem blocks_counts (steps : blocks depth text = some last) :
    last + text.count '\x7d' = depth + text.count '\x7b' := by
  induction text generalizing depth with
  | nil =>
    cases steps
    rfl
  | cons char text ih =>
    rw [blocks] at steps
    simp only [List.count_cons, beq_iff_eq]
    split at steps
    next opens =>
      have counted := ih steps
      rw [if_neg (by rw [opens]; decide), if_pos opens]
      omega
    next inside =>
      split at steps
      next closes =>
        split at steps
        next => cases steps
        next some =>
          have counted := ih steps
          rw [if_pos closes, if_neg inside]
          omega
      next outside =>
        rw [if_neg outside, if_neg inside]
        exact ih steps

theorem blocks_balanced (steps : blocks 0 text = some 0) : Balanced text := by
  constructor
  · simpa using blocks_counts steps
  · intro before begins
    obtain ⟨after, rfl⟩ := begins
    rw [blocks_append, Option.bind_eq_some_iff] at steps
    obtain ⟨middle, steps, _⟩ := steps
    have counted := blocks_counts steps
    omega

theorem blocks_inside (inside : ∀ char ∈ text, char ≠ '\x7b' ∧ char ≠ '\x7d') : blocks depth text = some depth := by
  induction text with
  | nil => rfl
  | cons char text ih =>
    obtain ⟨⟨opens, closes⟩, later⟩ := List.forall_mem_cons.mp inside
    rw [blocks, if_neg opens, if_neg closes, ih later]

end Blocks

section Lines

theorem shift_inline (even : '\n' ∉ line) : shift levels false line = line := by
  refine (hang_eq_iff levels line).mpr (.inr ?_)
  intro char broken
  exact absurd (broken.subset List.mem_cons_self) even

/-- A line that moves with a text stands before the rest of it. -/
theorem shift_row (even : '\n' ∉ char :: line) :
    shift levels true (char :: line ++ '\n' :: text) = pad levels ++ (char :: line) ++ '\n' :: shift levels true text := by
  have inside := List.ne_of_not_mem_cons even
  have later := List.not_mem_of_not_mem_cons even
  rw [List.cons_append, shift_inside inside.symm, shift_append, shift_inline later, shift_break, if_pos rfl,
    List.append_assoc, List.cons_append]

end Lines

namespace Laid

theorem append (begun : Laid depth first middle) (goes : Laid middle rest last) : Laid depth (first ++ rest) last := by
  induction begun with
  | done => exact goes
  | blank _ ih => exact .blank (ih goes)
  | row even begins steps _ ih =>
    rw [List.append_assoc, List.cons_append]
    exact .row even begins steps (ih goes)

/-- Behind whole lines a line begins. -/
theorem breaks (laid : Laid depth text last) : breaks true text = true := by
  induction laid with
  | done => rfl
  | blank _ ih => rw [breaks_cons]; exact ih
  | row _ _ _ _ ih => rw [breaks_append, breaks_cons]; exact ih

theorem blocks (laid : Laid depth text last) : blocks depth text = some last := by
  induction laid with
  | done => rfl
  | blank _ ih => exact ih
  | @row depth char line middle text last even begins steps _ ih =>
    have spaces : Layout.blocks depth (pad (level depth char)) = some depth := by
      refine blocks_inside ?_
      intro space member
      rw [List.eq_of_mem_replicate member]
      decide
    rw [blocks_append, blocks_append, spaces, Option.bind_some, steps]
    exact ih

/-- A line that a text moves with is laid out if it has as many levels as the text moves. -/
theorem moved (even : '\n' ∉ char :: line) (begins : char ≠ ' ')
    (steps : Layout.blocks depth (char :: line) = some middle)
    (levels) (stands : level depth char = levels) (goes : Laid middle (shift levels true text) last) :
    Laid depth (shift levels true (char :: line ++ '\n' :: text)) last := by
  subst stands
  rw [shift_row even]
  exact .row even begins steps goes

private theorem indented_from (laid : Laid depth text last) (before : List (List Char)) (line : List Char)
    (after : List (List Char)) (cut : lines text = before ++ line :: after) (some : line ≠ ['\n']) :
    ∃ char rest, char ≠ ' ' ∧
      line = pad (level (depth + before.flatten.count '\x7b' - before.flatten.count '\x7d') char) ++ char :: rest := by
  induction laid generalizing before with
  | done => cases before <;> cases cut
  | blank _ ih =>
    cases before with
    | nil => exact absurd (List.cons.inj cut).1.symm some
    | cons first before =>
      obtain ⟨rfl, later⟩ := List.cons.inj cut
      exact ih before later
  | @row depth char inside middle text last even begins steps _ ih =>
    have whole : '\n' ∉ pad (level depth char) ++ (char :: inside) := by
      intro member
      rcases List.mem_append.mp member with space | member
      · exact not_mem_pad _ space
      · exact even member
    rw [lines_row whole] at cut
    cases before with
    | nil =>
      obtain ⟨rfl, _⟩ := List.cons.inj cut
      exact ⟨char, inside ++ ['\n'], begins, by simp⟩
    | cons first before =>
      obtain ⟨rfl, later⟩ := List.cons.inj cut
      have spaces (brace : Char) (other : brace ≠ ' ') : (pad (level depth char)).count brace = 0 := by
        refine List.count_eq_zero.mpr ?_
        intro member
        exact other (List.eq_of_mem_replicate member)
      have counted := blocks_counts steps
      obtain ⟨next, rest, other, same⟩ := ih before later
      refine ⟨next, rest, other, ?_⟩
      rw [same]
      congr 3
      simp only [List.flatten_cons, List.count_append, List.count_singleton]
      rw [spaces '\x7b' (by decide), spaces '\x7d' (by decide)]
      simp only [beq_iff_eq, Char.reduceEq, if_false]
      omega

theorem indented (laid : Laid 0 text last) : Indented text := by
  intro before line after cut some
  obtain ⟨char, rest, other, same⟩ := laid.indented_from before line after cut some
  exact ⟨char, rest, by rwa [Nat.zero_add] at same, other⟩

end Laid

end Lowering.Layout
