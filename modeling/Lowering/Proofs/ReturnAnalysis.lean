import Mathlib
import Lowering.Proofs.MoveSafety
import Lowering.Proofs.StatementAnswers

/-! What is recorded of a statement as returning is right: no path leads to its end. So a
function with a result gives one back on every path through its body. -/

namespace Lowering

section Case

variable {char letter : Char} {chars word : List Char}

theorem toLower_eq_iff (small : letter.isUpper = false) :
    char.toLower = letter ↔ char = letter ∨ char = letter.toUpper := by
  have fixed : letter.toLower = letter := Char.toLower_eq_of_not_isUpper (Bool.eq_false_iff.mp small)
  constructor
  · rintro rfl
    rw [Char.toUpper_toLower_eq_toUpper]
    by_cases capital : char.isUpper
    · exact .inr (Char.toUpper_eq_of_not_isLower (Char.not_isLower_of_isUpper capital)).symm
    · exact .inl (Char.toLower_eq_of_not_isUpper capital).symm
  · rintro (rfl | rfl)
    · exact fixed
    · rw [Char.toLower_toUpper_eq_toLower, fixed]

/-- The characters are the word, each letter of it as it stands or as the capital. -/
def EitherCase (word chars : List Char) : Prop :=
  List.Forall₂ (fun letter char => char = letter ∨ char = letter.toUpper) word chars

theorem eitherCase_iff (small : ∀ letter ∈ word, letter.isUpper = false) :
    chars.map Char.toLower = word ↔ EitherCase word chars := by
  unfold EitherCase
  induction word generalizing chars with
  | nil => rw [List.map_eq_nil_iff, List.forall₂_nil_left_iff]
  | cons letter rest ih =>
    rw [List.forall_mem_cons] at small
    simp only [List.map_eq_cons_iff, List.forall₂_cons_left_iff, toLower_eq_iff small.1, ih small.2]
    exact exists₂_congr fun char more => and_comm.trans and_assoc

end Case

/-- The word true in letters of either case, with the kind of a truth value or without one. -/
structure Literal.MeansTrue (value : Literal) : Prop where
  kind : value.kind = .verbatim ∨ value.kind = .bool
  word : EitherCase "true".toList value.text.toList

theorem Literal.isTrue_iff {value : Literal} : value.isTrue = true ↔ value.MeansTrue := by
  have word : lowerAscii value.text = "true" ↔ EitherCase "true".toList value.text.toList := by
    rw [lowerAscii, ← String.toList_inj, String.toList_ofList]
    exact eitherCase_iff (by simp [Char.isUpper])
  simp only [isTrue, Bool.and_eq_true, Bool.or_eq_true, beq_iff_eq, word]
  exact ⟨fun ⟨kind, word⟩ => ⟨kind, word⟩, fun means => ⟨means.kind, means.word⟩⟩

namespace Expr

/-- The literal true, possibly in parentheses. -/
inductive MeansTrue : Expr → Prop
  | literal {value : Literal} (means : value.MeansTrue) : MeansTrue (literal value)
  | paren {inner : Expr} (means : MeansTrue inner) : MeansTrue (paren inner)

/-- The analysis knows the literal true from all other conditions. -/
theorem isTrue_iff {expr : Expr} : expr.isTrue = true ↔ expr.MeansTrue := by
  constructor
  · intro always
    induction expr using isTrue.induct with
    | case1 value => exact .literal (Literal.isTrue_iff.mp always)
    | case2 inner ih => exact .paren (ih always)
    | case3 expr _ _ => simp_all [isTrue]
  · intro means
    induction means with
    | literal means => exact Literal.isTrue_iff.mpr means
    | paren _ ih => exact ih

/-- Any condition but the literal true may come out false. -/
def MayFail (condition : Expr) : Prop :=
  ¬ condition.MeansTrue

end Expr

namespace Statement

theorem branchesReturn_eq (branches : List (Expr × List Statement)) :
    branchesReturn branches = branches.all fun branch => bodyReturns branch.2 := by
  induction branches with
  | nil => rfl
  | cons branch rest ih => rw [branchesReturn, ih, List.all_cons]

theorem armsReturn_eq (arms : List (List Expr × List Statement)) :
    armsReturn arms = arms.all fun arm => bodyReturns arm.2 := by
  induction arms with
  | nil => rfl
  | cons arm rest ih => rw [armsReturn, ih, List.all_cons]

theorem branchLeavesLoop_eq (branches : List (Expr × List Statement)) :
    branchLeavesLoop branches = branches.any fun branch => bodyLeavesLoop branch.2 := by
  induction branches with
  | nil => rfl
  | cons branch rest ih => rw [branchLeavesLoop, ih, List.any_cons]

theorem armLeavesLoop_eq (arms : List (List Expr × List Statement)) :
    armLeavesLoop arms = arms.any fun arm => bodyLeavesLoop arm.2 := by
  induction arms with
  | nil => rfl
  | cons arm rest ih => rw [armLeavesLoop, ih, List.any_cons]

end Statement

open Statement (bodyReturns bodyLeavesLoop defaultReturns defaultLeavesLoop Within Writes)

namespace Part

/-- What is recorded of a part as returning, read off the statements in it. -/
def alwaysReturns : Part → Bool
  | statement code => code.alwaysReturns
  | body statements => bodyReturns statements
  | choice alternatives otherwise =>
    alternatives.all (fun alternative => bodyReturns alternative.2) && defaultReturns otherwise
  | rounds (.condition condition) inner => condition.isTrue && (bodyReturns inner && !bodyLeavesLoop inner)
  | rounds (.item _ _) _ => false

def leavesLoop : Part → Bool
  | statement code => code.leavesLoop
  | body statements => bodyLeavesLoop statements
  | choice alternatives otherwise =>
    alternatives.any (fun alternative => bodyLeavesLoop alternative.2) || defaultLeavesLoop otherwise
  | rounds _ _ => false

def Holds (inner : Statement) : Part → Prop
  | statement code => Within inner code
  | body statements | rounds _ statements => ∃ outer ∈ statements, Within inner outer
  | choice alternatives otherwise =>
    (∃ alternative ∈ alternatives, ∃ outer ∈ alternative.2, Within inner outer) ∨
      ∃ statements, otherwise = some statements ∧ ∃ outer ∈ statements, Within inner outer

end Part

namespace Path

variable {fails : Expr → Prop} {part : Part} {steps : List Step} {ending : Ending}

/-- A path that leaves the loop around a part does so by a break of that loop. -/
theorem broke_leavesLoop (path : Path fails part steps ending) (broke : ending = .broke) :
    part.leavesLoop = true := by
  induction path with
  | plain | returning | continuing | done | skipped | refused | exhausted => cases broke
  | breaking => rfl
  | whileLoop _ ih | forLoop _ ih => cases ih broke
  | ifBlock _ ih =>
    have left := ih broke
    simpa [Part.ofBranches, Part.leavesLoop, Statement.leavesLoop, Statement.branchLeavesLoop_eq,
      Function.comp_def] using left
  | matchBlock _ ih =>
    have left := ih broke
    simpa [Part.ofArms, Part.leavesLoop, Statement.leavesLoop, Statement.armLeavesLoop_eq,
      Function.comp_def] using left
  | next _ _ _ ih =>
    simp only [Part.leavesLoop] at ih ⊢
    rw [bodyLeavesLoop, ih broke, Bool.or_true]
  | cut _ _ ih =>
    simp only [Part.leavesLoop] at ih ⊢
    rw [bodyLeavesLoop, ih broke, Bool.true_or]
  | taken _ _ ih =>
    have left : bodyLeavesLoop _ = true := ih broke
    simp [Part.leavesLoop, left]
  | passed _ _ ih =>
    have left := ih broke
    simp only [Part.leavesLoop, List.any_cons, Bool.or_assoc] at left ⊢
    rw [left, Bool.or_true]
  | default _ ih => exact ih broke
  | round _ _ _ _ ih => exact ih broke
  | @left _ _ _ ending _ _ _ => cases ending <;> cases broke

/-- No path leads to the end of a part that is recorded as returning. -/
theorem not_normal_of_returns (path : Path Expr.MayFail part steps ending)
    (returns : part.alwaysReturns = true) : ending ≠ .normal := by
  induction path with
  | @plain statement plain =>
    cases statement with
    | print | binding | set | run => cases returns
    | _ => cases plain
  | returning | breaking | continuing =>
    intro normal
    cases normal
  | whileLoop _ ih => exact ih returns
  | forLoop | done | exhausted => cases returns
  | ifBlock _ ih =>
    apply ih
    simpa [Part.ofBranches, Part.alwaysReturns, Statement.alwaysReturns, Statement.branchesReturn_eq,
      Function.comp_def] using returns
  | matchBlock _ ih =>
    apply ih
    simpa [Part.ofArms, Part.alwaysReturns, Statement.alwaysReturns, Statement.armsReturn_eq,
      Function.comp_def] using returns
  | next _ _ ihFirst ihLater =>
    rcases Bool.or_eq_true_iff.mp returns with first | later
    · exact absurd rfl (ihFirst first)
    · exact ihLater later
  | cut _ short _ => exact short
  | taken _ _ ih =>
    simp only [Part.alwaysReturns, List.all_cons, Bool.and_eq_true] at returns
    exact ih returns.1.1
  | passed _ _ ih =>
    simp only [Part.alwaysReturns, List.all_cons, Bool.and_eq_true] at returns
    exact ih (Bool.and_eq_true_iff.mpr ⟨returns.1.2, returns.2⟩)
  | default _ ih => exact ih returns
  | skipped => cases returns
  | refused refused =>
    simp only [Part.alwaysReturns, Bool.and_eq_true] at returns
    exact absurd (Expr.isTrue_iff.mp returns.1) refused
  | round _ _ _ _ ih => exact ih returns
  | @left head body inner ending inside off _ =>
    cases head with
    | item name borrowed => cases returns
    | condition condition =>
      simp only [Part.alwaysReturns, Bool.and_eq_true] at returns
      cases ending with
      | normal | continued => cases off
      | returned value =>
        intro normal
        cases normal
      | broke =>
        -- The analysis has looked for such a break by itself, and has found none.
        have leaves : bodyLeavesLoop body = true := broke_leavesLoop inside rfl
        rw [leaves] at returns
        cases returns.2.2

theorem holds_returning (path : Path fails part steps ending) {value : Option Expr}
    (returned : ending = .returned value) : part.Holds (.returning value) := by
  induction path with
  | plain | breaking | continuing | done | skipped | refused | exhausted => cases returned
  | returning =>
    cases returned
    exact .self
  | whileLoop _ ih =>
    obtain ⟨outer, member, within⟩ := ih returned
    exact .inWhile member within
  | forLoop _ ih =>
    obtain ⟨outer, member, within⟩ := ih returned
    exact .inFor member within
  | ifBlock _ ih =>
    rcases ih returned with ⟨_, one, outer, member, within⟩ | ⟨_, rfl, outer, member, within⟩
    · obtain ⟨branch, inBranches, rfl⟩ := List.mem_map.mp one
      exact .inBranch inBranches member within
    · exact .inElse member within
  | matchBlock _ ih =>
    rcases ih returned with ⟨_, one, outer, member, within⟩ | ⟨_, rfl, outer, member, within⟩
    · obtain ⟨arm, inArms, rfl⟩ := List.mem_map.mp one
      exact .inArm inArms member within
    · exact .inDefault member within
  | next _ _ _ ih =>
    obtain ⟨outer, member, within⟩ := ih returned
    exact ⟨outer, List.mem_cons_of_mem _ member, within⟩
  | cut _ _ ih => exact ⟨_, List.mem_cons_self, ih returned⟩
  | taken _ _ ih => exact .inl ⟨_, List.mem_cons_self, ih returned⟩
  | passed _ _ ih =>
    rcases ih returned with ⟨alternative, one, inside⟩ | otherwise
    · exact .inl ⟨alternative, List.mem_cons_of_mem _ one, inside⟩
    · exact .inr otherwise
  | default _ ih => exact .inr ⟨_, rfl, ih returned⟩
  | round _ _ _ _ ih => exact ih returned
  | @left _ _ _ ending _ _ ih =>
    cases ending with
    | returned _ => exact ih returned
    | _ => cases returned

end Path

namespace Function

variable {context : BodyContext}

theorem statementCodes_returns {statements : List Statement} {codes : List StatementCode}
    (answers : Action.Answers (statementCodes context statements) codes) :
    codes.any StatementCode.returns = bodyReturns statements := by
  unfold statementCodes at answers
  induction statements generalizing codes with
  | nil =>
    cases answers.of_pure
    rfl
  | cons statement rest ih =>
    rw [List.mapM_cons] at answers
    obtain ⟨first, begun, answers⟩ := answers.of_bind
    obtain ⟨later, ended, same⟩ := answers.of_bind
    cases same.of_pure
    rw [List.any_cons, ih ended, Statement.code_returns statement begun, bodyReturns]

end Function

/-- A path through an accepted body of a function with a result gives a value back. -/
theorem Definition.Accepts.path_returns {signatures : Signatures} {definition : Definition}
    {statements : List Statement} (accepts : definition.Accepts signatures statements)
    (declared : definition.resultType.isSome = true) {steps : List Step} {ending : Ending}
    (path : Path Expr.MayFail (.body statements) steps ending) : ∃ value, ending = .returned (some value) := by
  obtain ⟨before, codes, after, coded, returned⟩ := accepts.written
  have answers : Action.Answers (Function.statementCodes (definition.context signatures) statements) codes :=
    ⟨before, after, coded⟩
  have recorded := Function.statementCodes_returns answers
  have short := path.not_normal_of_returns (recorded.symm.trans (returned declared))
  have inside := (accepts.path_runs path).2
  cases ending with
  | normal => exact absurd rfl short
  | broke | continued => cases inside
  | returned value =>
    obtain ⟨outer, member, within⟩ := path.holds_returning rfl
    have carries := Statement.returning_writes (within.writes (answers.of_mapM outer member))
    obtain ⟨value, rfl⟩ := Option.isSome_iff_exists.mp (carries.trans declared)
    exact ⟨value, rfl⟩

/-- A statement recorded as returning has no path to its end, and so every path through the body
of a function with a result ends in a return that carries a value. -/
theorem return_analysis_sound :
    (∀ (context : BodyContext) (statement : Statement) (before after : Work) (written : StatementCode),
      statement.code context before = (.ok written, after) → written.returns = true →
        ∀ (steps : List Step) (ending : Ending),
          Path Expr.MayFail (.statement statement) steps ending → ending ≠ .normal) ∧
    ∀ (signatures : Signatures) (definition : Definition),
      (Function.ofDefinition signatures definition).result.isOk = true →
        definition.resultType.isSome = true →
          ∃ statements, definition.body = .ok statements ∧
            ∀ (steps : List Step) (ending : Ending), Path Expr.MayFail (.body statements) steps ending →
              ∃ value, ending = .returned (some value) := by
  constructor
  · intro context statement before after written ran returns steps ending path
    have recorded := Statement.code_returns statement ⟨before, after, ran⟩
    exact path.not_normal_of_returns (recorded.symm.trans returns)
  · intro signatures definition accepted declared
    obtain ⟨statements, accepts⟩ := Function.ofDefinition_accepts accepted
    exact ⟨statements, accepts.read, fun steps ending path => accepts.path_returns declared path⟩

theorem sample_returns : ∃ statements, Definition.sample.body = .ok statements ∧
    ∀ (steps : List Step) (ending : Ending), Path Expr.MayFail (.body statements) steps ending →
      ∃ value, ending = .returned (some value) :=
  return_analysis_sound.2 .taking .sample Definition.sample_accepted rfl

end Lowering
