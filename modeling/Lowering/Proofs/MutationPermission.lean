import Lowering.Proofs.AcceptedBodies
import Lowering.Proofs.Instances

/-! Only variables that allow it are ever changed. Wherever in a body an assignment, a method or
an argument changes a variable, the variable that its root stands for there permits the change. -/

namespace Lowering

theorem Use.allows_mutation {binding : Binding} {depth : Nat} {use : Use} (mutates : use.mutates = true)
    (allowed : binding.Allows depth use) : binding.isMutable = true := by
  cases use with
  | read name => cases mutates
  | set name | change name => exact allowed
  | pass name accessor =>
    cases accessor with
    | mutate => exact allowed.1
    | _ => cases mutates

theorem Binding.origin_of_isMutable {binding : Binding} (mutable : binding.isMutable = true) :
    binding.origin = .declared true ∨
      ∃ accessor ∈ [Accessor.mutate, .move, .copy], binding.origin = .parameter accessor := by
  obtain ⟨origin, moved, depth⟩ := binding
  cases origin with
  | declared flag =>
    cases mutable
    exact .inl rfl
  | parameter accessor =>
    refine .inr ⟨accessor, ?_, rfl⟩
    cases accessor with
    | look => cases mutable
    | _ => decide
  | loopItem borrowed => cases mutable

namespace Function

/-- In the body of a function that is written out, every root of an assignment, of a receiver
that its method changes, or of an argument passed to be changed stands for a mutable variable or
for a parameter that is handed over to be changed. -/
theorem mutations_permitted {signatures : Signatures} {definition : Definition}
    (accepted : (ofDefinition signatures definition).result.isOk = true) :
    ∃ statements, definition.body = .ok statements ∧
      ∀ entry ∈ Instances.initial.resolve (definition.parameterSteps ++ Statement.bodySteps statements),
        entry.2.mutates = true → ∃ held, entry.1 = some held ∧
          (held.origin = .declared true ∨
            ∃ accessor ∈ [Accessor.mutate, .move, .copy], held.origin = .parameter accessor) := by
  obtain ⟨statements, accepts⟩ := ofDefinition_accepts accepted
  refine ⟨statements, accepts.read, fun entry member mutates => ?_⟩
  obtain ⟨after, ran⟩ := accepts.ran
  obtain ⟨binding, held, depth, found, origin, allowed⟩ := (Instances.resolve_of_run ran).1 entry member
  have permitted := Binding.origin_of_isMutable (Use.allows_mutation mutates allowed)
  rw [origin] at permitted
  exact ⟨held, found, permitted⟩

theorem sample_mutations_permitted : ∃ statements, Definition.sample.body = .ok statements ∧
    ∀ entry ∈ Instances.initial.resolve (Definition.sample.parameterSteps ++ Statement.bodySteps statements),
      entry.2.mutates = true → ∃ held, entry.1 = some held ∧
        (held.origin = .declared true ∨
          ∃ accessor ∈ [Accessor.mutate, .move, .copy], held.origin = .parameter accessor) :=
  mutations_permitted Definition.sample_accepted

end Function
end Lowering
