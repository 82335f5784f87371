import Lowering.Error

/-! Names as they are written in Rust. Every name of the source goes behind a mark of its own,
so none of them can be taken for a keyword or for something that the containers export. -/

namespace Lowering.Name

/-- A letter or an underscore, then letters, digits and underscores, in ASCII. -/
def isValid (name : String) : Bool :=
  match name.toList with
  | [] => false
  | first :: rest =>
    (first.isAlpha || first == '_') && rest.all fun char => char.isAlphanum || char == '_'

def code (name : String) : Except Error String :=
  if isValid name then .ok ("sn_" ++ name) else .error (.malformed (.identifier name))

end Lowering.Name
