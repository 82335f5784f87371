import Lowering.Function.Code

/-! Whole programs: every function of a document in its order, and the entry point that starts
the program's own main function. -/

namespace Lowering

structure Program where
  functions : List Function
deriving Repr

namespace Program

/-- Opens every program; makes the containers and the printer known. -/
def opening : String :=
  "use serene_runtime::prelude::*;\n"

/-- The name of the function in which a program starts. -/
def entry : String :=
  "main"

def find? (program : Program) (name : String) : Option Function :=
  program.functions.find? fun function => function.name = name

/-- Reads a document and writes out every function of it. -/
def ofTree (tree : Tree) : Traced Program := do
  let definitions ← Definition.listOfTree tree
  let signatures ← Signatures.gather definitions
  if !signatures.contains entry then throw (.misuse .withoutMain)
  let functions ← definitions.mapM (Function.ofDefinition signatures)
  Traced.note (.lowered functions.length)
  return ⟨functions⟩

/-- The complete program. Nothing calls the function it starts in, which therefore takes no
parameters and gives nothing back. -/
def code (program : Program) : Except Error String := do
  match program.find? entry with
  | none => throw (.misuse .withoutMain)
  | some main =>
    if main.parameters ≠ [] ∨ main.resultType.isSome then throw (.mismatch .mainSignature)
    let functions ← program.functions.mapM Function.code
    let start ← Name.code entry
    return opening ++ "\n" ++ String.join (functions.map (· ++ "\n"))
      ++ "fn main() \x7b\n    " ++ start ++ "();\n\x7d\n"

/-- The bodies of the functions alone, each followed by a line break. -/
def bodies (program : Program) : String :=
  String.join (program.functions.map fun function => function.body ++ "\n")

end Program
end Lowering
