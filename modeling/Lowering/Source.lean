import Lowering.Json.Document
import Lowering.Program

/-! Programs from text. The text is a JSON document that holds the parse tree. -/

namespace Lowering

inductive SourceError where
  | notJson
  | refused (error : Error)
deriving DecidableEq, Repr

def SourceError.message : SourceError → String
  | notJson => "Input is not valid JSON"
  | refused error => error.message

namespace Program

/-- How many containers a document may hold within each other. -/
def nestingLimit : Nat :=
  127

/-- The program that a text holds, and what was reported on the way. -/
def ofText (text : String) : Except SourceError Program × List Event :=
  match Json.document? (some nestingLimit) text with
  | none => (.error .notJson, [])
  | some tree =>
    let (outcome, events) := (ofTree tree).outcome
    (outcome.mapError .refused, events)

end Program
end Lowering
