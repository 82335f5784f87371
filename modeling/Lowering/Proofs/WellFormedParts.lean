import Mathlib
import Lowering.Proofs.AcceptedBodies
import Lowering.Proofs.StatementAnswers
import Lowering.Proofs.StatementReading

/-! What can be read has only parts that can be read. -/

namespace Lowering

namespace Expr

variable {inner outer : Expr}

theorem argumentsWellFormed_iff {arguments : List (Accessor × Expr)} :
    argumentsWellFormed arguments ↔ ∀ argument ∈ arguments, argument.2.WellFormed .expression := by
  induction arguments with
  | nil => simp [argumentsWellFormed]
  | cons argument rest ih => rw [argumentsWellFormed, List.forall_mem_cons, ih]

theorem operandsWellFormed_iff {operands : List (BinaryOp × Expr)} :
    operandsWellFormed operands ↔ ∀ operand ∈ operands, operand.2.WellFormed .operand := by
  induction operands with
  | nil => simp [operandsWellFormed]
  | cons operand rest ih => rw [operandsWellFormed, List.forall_mem_cons, ih]

theorem Part.wellFormed (part : Part inner outer) {level : Level} (formed : outer.WellFormed level) :
    ∃ level, inner.WellFormed level := by
  induction part generalizing level with
  | self => exact ⟨level, formed⟩
  | inArgument one _ ih =>
    rw [WellFormed, argumentsWellFormed_iff] at formed
    exact ih (formed _ one)
  | inOperand one _ ih =>
    rw [WellFormed, allWellFormed_iff] at formed
    exact ih (formed.2.2 _ one)
  | inItem one _ ih =>
    rw [WellFormed, allWellFormed_iff] at formed
    exact ih (formed _ one)
  | inRest one _ ih =>
    rw [WellFormed, operandsWellFormed_iff] at formed
    exact ih (formed.2.2.2 _ one)
  | inReceiver _ ih | inIndexed _ ih | inFirst _ ih =>
    rw [WellFormed] at formed
    exact ih formed.2.1
  | inField _ ih | inUnary _ ih =>
    rw [WellFormed] at formed
    exact ih formed.2
  | inPosition _ ih =>
    rw [WellFormed] at formed
    exact ih formed.2.2
  | inParen _ ih =>
    rw [WellFormed] at formed
    exact ih formed

/-- The literals of an expression that can be read are ones that can be. -/
theorem Part.literal_wellFormed {value : Literal} (part : Part (.literal value) outer) {level : Level}
    (formed : outer.WellFormed level) : value.WellFormed := by
  obtain ⟨level, formed⟩ := part.wellFormed formed
  rwa [WellFormed] at formed

end Expr

namespace Statement

variable {inner outer statement : Statement}

theorem Within.trans {middle : Statement} (first : Within inner middle) (last : Within middle outer) :
    Within inner outer := by
  induction last with
  | self => exact first
  | inWhile member _ ih => exact .inWhile member ih
  | inFor member _ ih => exact .inFor member ih
  | inBranch one member _ ih => exact .inBranch one member ih
  | inElse member _ ih => exact .inElse member ih
  | inArm one member _ ih => exact .inArm one member ih
  | inDefault member _ ih => exact .inDefault member ih

theorem branchesWellFormed_iff {branches : List (Expr × List Statement)} : branchesWellFormed branches ↔
    ∀ branch ∈ branches, branch.1.WellFormed .expression ∧ bodyWellFormed branch.2 := by
  induction branches with
  | nil => simp [branchesWellFormed]
  | cons branch rest ih => rw [branchesWellFormed, List.forall_mem_cons, ih]

theorem armsWellFormed_iff {arms : List (List Expr × List Statement)} : armsWellFormed arms ↔
    ∀ arm ∈ arms, arm.1 ≠ [] ∧ Expr.allWellFormed arm.1 ∧ bodyWellFormed arm.2 := by
  induction arms with
  | nil => simp [armsWellFormed]
  | cons arm rest ih => rw [armsWellFormed, List.forall_mem_cons, ih]

theorem Within.wellFormed (within : Within inner outer) (formed : outer.WellFormed) : inner.WellFormed := by
  induction within with
  | self => exact formed
  | inWhile member _ ih | inFor member _ ih =>
    rw [WellFormed] at formed
    exact ih (bodyWellFormed_iff.mp formed.2 _ member)
  | inBranch one member _ ih =>
    rw [WellFormed, branchesWellFormed_iff] at formed
    exact ih (bodyWellFormed_iff.mp (formed.2.1 _ one).2 _ member)
  | inElse member _ ih =>
    rw [WellFormed, defaultWellFormed] at formed
    exact ih (bodyWellFormed_iff.mp formed.2.2 _ member)
  | inArm one member _ ih =>
    rw [WellFormed, armsWellFormed_iff] at formed
    exact ih (bodyWellFormed_iff.mp (formed.2.2.1 _ one).2.2 _ member)
  | inDefault member _ ih =>
    rw [WellFormed, defaultWellFormed] at formed
    exact ih (bodyWellFormed_iff.mp formed.2.2.2 _ member)

theorem expressions_wellFormed (formed : statement.WellFormed) {expr : Expr} (member : expr ∈ statement.expressions) :
    ∃ level, expr.WellFormed level := by
  cases statement with
  | print values =>
    rw [WellFormed, Expr.allWellFormed_iff] at formed
    exact ⟨_, formed expr member⟩
  | binding mutable name type value =>
    cases List.mem_singleton.mp member
    exact ⟨_, formed⟩
  | set target operator value =>
    rw [WellFormed] at formed
    rcases List.mem_cons.mp member with rfl | isValue
    · exact ⟨_, formed.1.2⟩
    · cases List.mem_singleton.mp isValue
      exact ⟨_, formed.2⟩
  | run term =>
    cases List.mem_singleton.mp member
    exact ⟨_, formed⟩
  | returning value =>
    rw [WellFormed] at formed
    exact ⟨_, formed expr (Option.mem_toList.mp member)⟩
  | breaking | continuing => cases member
  | whileLoop condition body =>
    cases List.mem_singleton.mp member
    rw [WellFormed] at formed
    exact ⟨_, formed.1⟩
  | forLoop name range body =>
    rw [WellFormed, Expr.allWellFormed_iff] at formed
    exact ⟨_, formed.1 expr member⟩
  | ifBlock branches otherwise =>
    rw [WellFormed, branchesWellFormed_iff] at formed
    obtain ⟨branch, one, rfl⟩ := List.mem_map.mp member
    exact ⟨_, (formed.2.1 branch one).1⟩
  | matchBlock subject arms otherwise =>
    rw [WellFormed, armsWellFormed_iff] at formed
    rcases List.mem_cons.mp member with rfl | inArm
    · exact ⟨_, formed.1⟩
    · obtain ⟨arm, one, inside⟩ := List.mem_flatMap.mp inArm
      exact ⟨_, Expr.allWellFormed_iff.mp (formed.2.2.1 arm one).2.1 expr inside⟩

end Statement

theorem Definition.body_wellFormed {definition : Definition} {statements : List Statement}
    (read : definition.body = .ok statements) : Statement.bodyWellFormed statements := by
  unfold body at read
  split at read
  next => exact Statement.listOfTree_wellFormed read
  next =>
    cases read
    trivial

end Lowering
