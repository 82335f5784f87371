import Lowering.Function.Signature
import Lowering.Proofs.ActionRuns

/-! What a call depends on in a table of signatures: the accessors of the function that it names.
Two tables that agree on these serve every call alike. -/

namespace Lowering

def Signature.accessors (signature : Signature) : List Accessor :=
  signature.parameters.map Prod.snd

namespace Signatures

variable {signatures other : Signatures} {function : String} {arguments : Nat} {signature : Signature}

/-- Every function of the table is in the other one too, with the same accessors, whatever else is
said of it there. -/
def CarriedBy (signatures other : Signatures) : Prop :=
  ∀ name signature, signatures.get? name = some signature →
    ∃ held, other.get? name = some held ∧ held.accessors = signature.accessors

theorem CarriedBy.refl (signatures : Signatures) : CarriedBy signatures signatures :=
  fun _ signature found => ⟨signature, found, rfl⟩

theorem forCall_ok : signatures.forCall function arguments = .ok signature ↔
    signatures.get? function = some signature ∧ signature.parameters.length = arguments := by
  unfold forCall
  cases signatures.get? function with
  | none => simp
  | some found =>
    by_cases counted : found.parameters.length = arguments
    · simp only [counted, if_true, Except.ok.injEq, Option.some.injEq]
      constructor
      · rintro rfl
        exact ⟨rfl, counted⟩
      · exact And.left
    · simp only [counted, if_false, reduceCtorEq, Option.some.injEq, false_iff, not_and]
      rintro rfl
      exact counted

theorem CarriedBy.forCall (carried : signatures.CarriedBy other)
    (found : signatures.forCall function arguments = .ok signature) :
    ∃ held, other.forCall function arguments = .ok held ∧ held.accessors = signature.accessors := by
  obtain ⟨there, counted⟩ := forCall_ok.mp found
  obtain ⟨held, there', same⟩ := carried function signature there
  refine ⟨held, forCall_ok.mpr ⟨there', ?_⟩, same⟩
  simpa [Signature.accessors, counted] using congrArg List.length same

end Signatures
end Lowering
