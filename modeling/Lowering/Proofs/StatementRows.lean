import Mathlib
import Lowering.Proofs.Outlines

/-! The rows of a statement are the lines that its expressions come out in, its own and those of every
statement in it. -/

namespace Lowering

theorem mem_deeper {α : Type} {rows : List (Nat × α)} {levels : Nat} {row : α} :
    (levels, row) ∈ deeper rows ↔ ∃ outer, levels = outer + 1 ∧ (outer, row) ∈ rows := by
  simp only [deeper, List.mem_map, Prod.map, Prod.mk.injEq, Prod.exists, id_eq]
  constructor
  · intro ⟨outer, _, member, same, rfl⟩
    exact ⟨outer, same.symm, member⟩
  · intro ⟨outer, same, member⟩
    exact ⟨outer, row, member, same.symm, rfl⟩

namespace Statement

/-- The statement is a loop whose condition is written as true, so that it does not come out. -/
def loopsForever : Statement → Bool
  | whileLoop condition _ => condition.isTrue
  | _ => false

variable {body : List Statement} {statement inner outer : Statement} {expr : Expr} {levels : Nat} {exprs : List Expr}

theorem mem_bodyRows {row : Nat × List Expr} : row ∈ bodyRows body ↔ ∃ statement ∈ body, row ∈ statement.rows := by
  induction body with
  | nil => simp [bodyRows]
  | cons statement rest ih => rw [bodyRows, List.mem_append, ih, List.exists_mem_cons_iff]

theorem mem_branchRows {branches : List (Expr × List Statement)} {row : Nat × List Expr} :
    row ∈ branchRows branches ↔ ∃ branch ∈ branches, row = (0, [branch.1]) ∨ row ∈ deeper (bodyRows branch.2) := by
  induction branches with
  | nil => simp [branchRows]
  | cons branch rest ih =>
    rw [branchRows, List.mem_cons, List.mem_append, ih, List.exists_mem_cons_iff, or_assoc]

theorem mem_armRows {arms : List (List Expr × List Statement)} {row : Nat × List Expr} :
    row ∈ armRows arms ↔ ∃ arm ∈ arms, row = (0, arm.1) ∨ row ∈ deeper (bodyRows arm.2) := by
  induction arms with
  | nil => simp [armRows]
  | cons arm rest ih => rw [armRows, List.mem_cons, List.mem_append, ih, List.exists_mem_cons_iff, or_assoc]

/-- Each expression of a statement comes out in one of its rows. -/
theorem exists_row (comesOut : statement.loopsForever = false) (member : expr ∈ statement.expressions) :
    ∃ levels exprs, (levels, exprs) ∈ statement.rows ∧ expr ∈ exprs := by
  cases statement with
  | whileLoop condition body =>
    have tested : ¬ condition.isTrue = true := by
      simpa [loopsForever] using comesOut
    rw [rows, if_neg tested]
    exact ⟨0, _, List.mem_cons_self, member⟩
  | forLoop name range body =>
    rw [rows]
    exact ⟨0, _, List.mem_cons_self, member⟩
  | ifBlock branches otherwise =>
    obtain ⟨branch, one, rfl⟩ := List.mem_map.mp member
    rw [rows]
    exact ⟨0, [branch.1], List.mem_append_left _ (mem_branchRows.mpr ⟨branch, one, .inl rfl⟩), List.mem_singleton_self _⟩
  | matchBlock subject arms otherwise =>
    simp only [rows, mem_deeper]
    rcases List.mem_cons.mp member with rfl | inArm
    · exact ⟨1, _, ⟨0, rfl, List.mem_cons_self⟩, List.mem_singleton_self _⟩
    · obtain ⟨arm, one, inside⟩ := List.mem_flatMap.mp inArm
      have row : (0, arm.1) ∈ armRows arms := mem_armRows.mpr ⟨arm, one, .inl rfl⟩
      exact ⟨1, arm.1, ⟨0, rfl, List.mem_cons_of_mem _ (List.mem_append_left _ row)⟩, inside⟩
  | print values | binding mutable name type value | set target operator value | run term | returning value =>
    rw [rows]
    exact ⟨0, _, List.mem_singleton_self _, member⟩
  | breaking | continuing => cases member

private theorem deeper_body (member : outer ∈ body) (row : ∃ levels, (levels, exprs) ∈ outer.rows) :
    ∃ levels, (levels, exprs) ∈ deeper (bodyRows body) := by
  obtain ⟨levels, inside⟩ := row
  exact ⟨levels + 1, mem_deeper.mpr ⟨levels, rfl, mem_bodyRows.mpr ⟨outer, member, inside⟩⟩⟩

/-- The rows of a statement are rows of every statement that it stands in. -/
theorem Within.row (within : Within inner outer) (row : ∃ levels, (levels, exprs) ∈ inner.rows) :
    ∃ levels, (levels, exprs) ∈ outer.rows := by
  induction within with
  | self => exact row
  | inWhile member _ ih | inFor member _ ih =>
    obtain ⟨levels, inside⟩ := deeper_body member ih
    rw [rows]
    exact ⟨levels, List.mem_cons_of_mem _ inside⟩
  | inBranch one member _ ih =>
    obtain ⟨levels, inside⟩ := deeper_body member ih
    rw [rows]
    exact ⟨levels, List.mem_append_left _ (mem_branchRows.mpr ⟨_, one, .inr inside⟩)⟩
  | inElse member _ ih =>
    obtain ⟨levels, inside⟩ := deeper_body member ih
    rw [rows, defaultRows]
    exact ⟨levels, List.mem_append_right _ inside⟩
  | inArm one member _ ih =>
    obtain ⟨levels, inside⟩ := deeper_body member ih
    have row := mem_armRows.mpr ⟨_, one, .inr inside⟩
    rw [rows]
    exact ⟨levels + 1, mem_deeper.mpr ⟨levels, rfl, List.mem_cons_of_mem _ (List.mem_append_left _ row)⟩⟩
  | inDefault member _ ih =>
    obtain ⟨levels, inside⟩ := deeper_body member ih
    rw [rows, defaultRows]
    exact ⟨levels + 1, mem_deeper.mpr ⟨levels, rfl, List.mem_cons_of_mem _ (List.mem_append_right _ inside)⟩⟩


/-- What comes out in a row of a statement stands in a statement within it. -/
theorem row_within (statement : Statement) {levels : Nat} {exprs : List Expr} {expr : Expr}
    (row : (levels, exprs) ∈ statement.rows) (inRow : expr ∈ exprs) :
    ∃ inner, Within inner statement ∧ expr ∈ inner.expressions := by
  have inBody {levels} (body : List Statement) (smaller : sizeOf body < sizeOf statement)
      (row : (levels, exprs) ∈ deeper (bodyRows body)) :
      ∃ outer ∈ body, ∃ inner, Within inner outer ∧ expr ∈ inner.expressions := by
    obtain ⟨_, rfl, shallow⟩ := mem_deeper.mp row
    obtain ⟨outer, among, own⟩ := mem_bodyRows.mp shallow
    have small := List.sizeOf_lt_of_mem among
    exact ⟨outer, among, row_within outer own inRow⟩
  have inDefault {levels} (body : List Statement) (smaller : sizeOf body < sizeOf statement)
      (row : (levels, exprs) ∈ defaultRows (some body)) := inBody body smaller (by rwa [defaultRows] at row)
  cases statement with
  | print _ | binding _ _ _ _ | set _ _ _ | run _ | returning _ =>
    rw [rows] at row
    cases List.mem_singleton.mp row
    exact ⟨_, .self, inRow⟩
  | breaking | continuing =>
    rw [rows] at row
    cases List.mem_singleton.mp row
    cases inRow
  | whileLoop condition body =>
    rw [rows] at row
    rcases List.mem_cons.mp row with tested | row
    · cases tested
      split at inRow
      · cases inRow
      · exact ⟨_, .self, inRow⟩
    · obtain ⟨outer, among, inner, within, inside⟩ := inBody body (by simp) row
      exact ⟨inner, .inWhile among within, inside⟩
  | forLoop name range body =>
    rw [rows] at row
    rcases List.mem_cons.mp row with ranged | row
    · cases ranged
      exact ⟨_, .self, inRow⟩
    · obtain ⟨outer, among, inner, within, inside⟩ := inBody body (by simp) row
      exact ⟨inner, .inFor among within, inside⟩
  | ifBlock branches otherwise =>
    rw [rows] at row
    rcases List.mem_append.mp row with row | row
    · obtain ⟨branch, one, tested | row⟩ := mem_branchRows.mp row
      · cases tested
        refine ⟨_, .self, ?_⟩
        rw [List.mem_singleton.mp inRow]
        exact List.mem_map_of_mem one
      · have small := List.sizeOf_lt_of_mem one
        obtain ⟨outer, among, inner, within, inside⟩ := inBody branch.2 (by cases branch; simp at small ⊢; omega) row
        exact ⟨inner, .inBranch one among within, inside⟩
    · cases otherwise with
      | none =>
        rw [defaultRows] at row
        cases row
      | some body =>
        obtain ⟨outer, among, inner, within, inside⟩ := inDefault body (by simp; omega) row
        exact ⟨inner, .inElse among within, inside⟩
  | matchBlock subject arms otherwise =>
    rw [rows] at row
    obtain ⟨_, rfl, shallow⟩ := mem_deeper.mp row
    rcases List.mem_cons.mp shallow with matched | row
    · cases matched
      exact ⟨_, .self, List.mem_cons.mpr (.inl (List.mem_singleton.mp inRow))⟩
    · rcases List.mem_append.mp row with row | row
      · obtain ⟨arm, one, tested | row⟩ := mem_armRows.mp row
        · cases tested
          exact ⟨_, .self, List.mem_cons_of_mem _ (List.mem_flatMap.mpr ⟨arm, one, inRow⟩)⟩
        · have small := List.sizeOf_lt_of_mem one
          obtain ⟨outer, among, inner, within, inside⟩ := inBody arm.2 (by cases arm; simp at small ⊢; omega) row
          exact ⟨inner, .inArm one among within, inside⟩
      · cases otherwise with
        | none =>
          rw [defaultRows] at row
          cases row
        | some body =>
          obtain ⟨outer, among, inner, within, inside⟩ := inDefault body (by simp; omega) row
          exact ⟨inner, .inDefault among within, inside⟩
termination_by sizeOf statement
decreasing_by omega

end Statement

end Lowering
