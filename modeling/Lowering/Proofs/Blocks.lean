import Mathlib.Data.List.Forall2
import Lowering.Scope.Basic

/-! Stacks of blocks, in which a name is looked up from the inside out. What a scope says of a
variable is compared with what another scope says of it, or with the instance of the variable
that a running body holds, by matching two such stacks name for name. -/

namespace Lowering

section Matching

variable {R : α → β → Prop} {first : List α} {second : List β}

theorem exists_of_forall₂ (each : List.Forall₂ R first second) {one : α} (member : one ∈ first) :
    ∃ other ∈ second, R one other := by
  induction each with
  | nil => cases member
  | cons related _ ih =>
    rcases List.mem_cons.mp member with rfl | inRest
    · exact ⟨_, List.mem_cons_self, related⟩
    · obtain ⟨other, among, related⟩ := ih inRest
      exact ⟨other, List.mem_cons_of_mem _ among, related⟩

theorem exists_left_of_forall₂ (each : List.Forall₂ R first second) {other : β} (member : other ∈ second) :
    ∃ one ∈ first, R one other :=
  exists_of_forall₂ each.flip member

/-- A relation can be followed along a list if it can be from each of its entries. -/
theorem exists_forall₂ : (∃ second, List.Forall₂ R first second) ↔ ∀ one ∈ first, ∃ other, R one other := by
  constructor
  · intro ⟨second, each⟩ one member
    obtain ⟨other, _, related⟩ := exists_of_forall₂ each member
    exact ⟨other, related⟩
  · intro each
    induction first with
    | nil => exact ⟨[], .nil⟩
    | cons one first ih =>
      obtain ⟨⟨other, related⟩, later⟩ := List.forall_mem_cons.mp each
      obtain ⟨second, matched⟩ := ih later
      exact ⟨other :: second, .cons related matched⟩

end Matching

/-- Two stacks hold the same names in the same places, with related values. -/
def Matched (related : α → β → Prop) (first : List (List (String × α)))
    (second : List (List (String × β))) : Prop :=
  List.Forall₂ (List.Forall₂ fun one other => one.1 = other.1 ∧ related one.2 other.2) first second

def innermost? (blocks : List (List (String × α))) (name : String) : Option α :=
  blocks.findSome? (·.lookup name)

theorem lookup_eq_none {entries : List (String × α)} {name : String} :
    entries.lookup name = none ↔ name ∉ entries.map Prod.fst := by
  rw [List.lookup_eq_none_iff, List.mem_map]
  constructor
  · rintro unlike ⟨entry, member, rfl⟩
    exact absurd (unlike entry member) (by simp)
  · intro missing entry member
    exact bne_iff_ne.mpr fun same => missing ⟨entry, member, same.symm⟩

namespace Matched

variable {first : List (List (String × α))} {second : List (List (String × β))}
  {third : List (List (String × γ))} {related : α → β → Prop} {weaker : α → β → Prop}

theorem same {related : α → α → Prop} (reflexive : ∀ value, related value value)
    (blocks : List (List (String × α))) : Matched related blocks blocks :=
  List.forall₂_same.mpr fun _ _ => List.forall₂_same.mpr fun _ _ => ⟨rfl, reflexive _⟩

theorem imp (matched : Matched related first second)
    (implies : ∀ one other, related one other → weaker one other) : Matched weaker first second :=
  List.Forall₂.imp (fun _ _ block =>
    List.Forall₂.imp (fun _ _ entry => ⟨entry.1, implies _ _ entry.2⟩) block) matched

private theorem compose {R : α → β → Prop} {S : β → γ → Prop} {T : α → γ → Prop}
    (link : ∀ one two three, R one two → S two three → T one three) {first : List α} {second : List β}
    {third : List γ} (left : List.Forall₂ R first second) (right : List.Forall₂ S second third) :
    List.Forall₂ T first third := by
  induction left generalizing third with
  | nil =>
    cases right
    exact .nil
  | cons head _ ih =>
    cases right with
    | cons other rest => exact .cons (link _ _ _ head other) (ih rest)

theorem trans {other : β → γ → Prop} {whole : α → γ → Prop}
    (link : ∀ one two three, related one two → other two three → whole one three)
    (left : Matched related first second) (right : Matched other second third) :
    Matched whole first third := by
  refine compose ?_ left right
  intro _ _ _ leftBlock rightBlock
  refine compose ?_ leftBlock rightBlock
  intro one two three leftEntry rightEntry
  exact ⟨leftEntry.1.trans rightEntry.1, link one.2 two.2 three.2 leftEntry.2 rightEntry.2⟩

theorem block_lookup {first : List (String × α)} {second : List (String × β)}
    (matched : List.Forall₂ (fun one other => one.1 = other.1 ∧ related one.2 other.2) first second)
    (name : String) :
    first.lookup name = none ∧ second.lookup name = none ∨
      ∃ value other, first.lookup name = some value ∧ second.lookup name = some other ∧
        related value other := by
  induction matched with
  | nil => exact .inl ⟨rfl, rfl⟩
  | @cons one other _ _ entry _ ih =>
    obtain ⟨key, value⟩ := one
    obtain ⟨key', value'⟩ := other
    obtain ⟨rfl, values⟩ : key = key' ∧ related value value' := entry
    by_cases here : name = key
    · subst here
      exact .inr ⟨value, value', List.lookup_cons_self, List.lookup_cons_self, values⟩
    · simpa only [List.lookup_cons, beq_eq_false_iff_ne.mpr here] using ih

theorem innermost (matched : Matched related first second) (name : String) :
    innermost? first name = none ∧ innermost? second name = none ∨
      ∃ value other, innermost? first name = some value ∧ innermost? second name = some other ∧
        related value other := by
  induction matched with
  | nil => exact .inl ⟨rfl, rfl⟩
  | cons block _ ih =>
    simp only [innermost?, List.findSome?_cons]
    rcases block_lookup block name with ⟨left, right⟩ | ⟨value, other, left, right, values⟩
    · rw [left, right]
      exact ih
    · rw [left, right]
      exact .inr ⟨value, other, rfl, rfl, values⟩

theorem counterpart (matched : Matched related first second) {name : String} {value : α}
    (found : innermost? first name = some value) :
    ∃ other, innermost? second name = some other ∧ related value other := by
  rcases matched.innermost name with ⟨missing, _⟩ | ⟨one, other, left, right, values⟩
  · cases missing.symm.trans found
  · cases left.symm.trans found
    exact ⟨other, right, values⟩

theorem counterpart_left (matched : Matched related first second) {name : String} {other : β}
    (found : innermost? second name = some other) :
    ∃ value, innermost? first name = some value ∧ related value other := by
  rcases matched.innermost name with ⟨_, missing⟩ | ⟨value, another, left, right, values⟩
  · cases missing.symm.trans found
  · cases right.symm.trans found
    exact ⟨value, left, values⟩

theorem mem_second (matched : Matched related first second) {block : List (String × β)}
    (inStack : block ∈ second) {entry : String × β} (inBlock : entry ∈ block) :
    ∃ other ∈ first, ∃ held ∈ other, related held.2 entry.2 := by
  obtain ⟨other, inFirst, entries⟩ := exists_left_of_forall₂ matched inStack
  obtain ⟨held, inOther, _, values⟩ := exists_left_of_forall₂ entries inBlock
  exact ⟨other, inFirst, held, inOther, values⟩

private theorem eq_of_forall {R : α → α → Prop} {first second : List α}
    (matched : List.Forall₂ R first second) (same : ∀ one ∈ first, ∀ other, R one other → one = other) :
    first = second := by
  induction matched with
  | nil => rfl
  | cons head _ ih =>
    rw [same _ List.mem_cons_self _ head, ih fun one member => same one (List.mem_cons_of_mem _ member)]

theorem eq_of_mem {related : α → α → Prop} {first second : List (List (String × α))}
    (matched : Matched related first second)
    (same : ∀ block ∈ first, ∀ entry ∈ block, ∀ other, related entry.2 other → entry.2 = other) :
    first = second := by
  apply eq_of_forall matched
  intro block inStack other entries
  exact eq_of_forall entries fun entry inBlock held values =>
    Prod.ext values.1 (same block inStack entry inBlock held.2 values.2)

end Matched

namespace Scope

theorem frames_markMoved (scope : Scope) (name : String) :
    (scope.markMoved name).frames = markFrames name scope.frames := by
  simp only [markMoved, frames, markFrames]
  split <;> rfl

@[simp] theorem loopDepth_markMoved (scope : Scope) (name : String) :
    (scope.markMoved name).loopDepth = scope.loopDepth := by
  simp only [markMoved]
  split <;> rfl

variable {related : Binding → Binding → Prop} {name : String} {binding : Binding}

private theorem markFrame_matched (same : ∀ binding, related binding binding) (frame : Frame)
    (found : frame.lookup name = some binding) (marked : related binding { binding with moved := true }) :
    List.Forall₂ (fun one other : String × Binding => one.1 = other.1 ∧ related one.2 other.2)
      frame (markFrame name frame) := by
  induction frame with
  | nil => cases found
  | cons entry rest ih =>
    obtain ⟨key, held⟩ := entry
    by_cases here : key = name
    · subst here
      cases List.lookup_cons_self.symm.trans found
      simp only [markFrame]
      exact .cons ⟨rfl, marked⟩ (List.forall₂_same.mpr fun _ _ => ⟨rfl, same _⟩)
    · simp only [List.lookup_cons, beq_eq_false_iff_ne.mpr (Ne.symm here)] at found
      simp only [markFrame, here, if_false]
      exact .cons ⟨rfl, same held⟩ (ih found)

theorem markFrames_matched (same : ∀ binding, related binding binding) (frames : List Frame)
    (found : innermost? frames name = some binding) (marked : related binding { binding with moved := true }) :
    Matched related frames (markFrames name frames) := by
  induction frames with
  | nil => cases found
  | cons frame rest ih =>
    simp only [innermost?, List.findSome?_cons] at found
    simp only [markFrames]
    cases here : frame.lookup name with
    | some held =>
      simp only [here, Option.some.injEq] at found
      subst found
      exact .cons (markFrame_matched same frame here marked) (Matched.same same rest)
    | none =>
      simp only [here] at found
      exact .cons (List.forall₂_same.mpr fun _ _ => ⟨rfl, same _⟩) (ih found)

private theorem markFrame_both (marked : ∀ one other, related one other →
      related { one with moved := true } { other with moved := true }) {first second : Frame}
    (matched : List.Forall₂ (fun one other : String × Binding => one.1 = other.1 ∧ related one.2 other.2)
      first second) :
    List.Forall₂ (fun one other : String × Binding => one.1 = other.1 ∧ related one.2 other.2)
      (markFrame name first) (markFrame name second) := by
  induction matched with
  | nil => exact .nil
  | @cons one other _ _ entry rest ih =>
    obtain ⟨key, held⟩ := one
    obtain ⟨key', held'⟩ := other
    obtain ⟨rfl, values⟩ : key = key' ∧ related held held' := entry
    simp only [markFrame]
    split
    · exact .cons ⟨rfl, marked _ _ values⟩ rest
    · exact .cons ⟨rfl, values⟩ ih

/-- Matched stacks have the variable of a name in the same place, so marking it in both keeps
them matched. -/
theorem markFrames_both (marked : ∀ one other, related one other →
      related { one with moved := true } { other with moved := true }) {first second : List Frame}
    (matched : Matched related first second) :
    Matched related (markFrames name first) (markFrames name second) := by
  induction matched with
  | nil => exact .nil
  | @cons one other _ _ block rest ih =>
    simp only [markFrames]
    rcases Matched.block_lookup block name with ⟨left, right⟩ | ⟨_, _, left, right, _⟩
    · simp only [left, right, Option.isSome_none, Bool.false_eq_true, if_false]
      exact .cons block ih
    · simp only [left, right, Option.isSome_some, if_true]
      exact .cons (markFrame_both marked block) rest

theorem lookup_markFrame (frame : Frame) (name other : String) :
    (markFrame name frame).lookup other =
      if name = other then (frame.lookup name).map fun binding => { binding with moved := true }
      else frame.lookup other := by
  induction frame with
  | nil => simp [markFrame]
  | cons entry rest ih =>
    obtain ⟨key, held⟩ := entry
    simp only [markFrame]
    split
    next same =>
      subst same
      by_cases named : key = other
      · simp [named]
      · simp [named, List.lookup_cons, beq_eq_false_iff_ne.mpr (Ne.symm named)]
    next different =>
      simp only [List.lookup_cons, ih]
      by_cases named : name = other
      · subst named
        simp [beq_eq_false_iff_ne.mpr (Ne.symm different)]
      · simp [named]

/-- Marking a name moves the variable that the name stands for, and no other. -/
theorem innermost_markFrames (frames : List Frame) (name other : String) :
    innermost? (markFrames name frames) other =
      if name = other then (innermost? frames name).map fun binding => { binding with moved := true }
      else innermost? frames other := by
  induction frames with
  | nil => simp [markFrames, innermost?]
  | cons frame rest ih =>
    simp only [markFrames]
    cases here : frame.lookup name with
    | none =>
      simp only [innermost?, Option.isSome_none, Bool.false_eq_true, if_false, List.findSome?_cons] at ih ⊢
      rw [ih, here]
      by_cases named : name = other
      · subst named
        simp [here]
      · simp [named]
    | some held =>
      simp only [innermost?, Option.isSome_some, if_true, List.findSome?_cons, lookup_markFrame]
      by_cases named : name = other
      · subst named
        simp [here]
      · simp [named]

end Scope
end Lowering
