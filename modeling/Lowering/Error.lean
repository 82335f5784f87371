import Lowering.Tree.Basic
import Lowering.Accessor
import Lowering.Method

/-! Why a tree is refused. Each cause is a constructor of its own and carries what its message
names; the wording is in one place per family of causes. -/

namespace Lowering

/-- The tree does not have the form that every tree has, or breaks the grammar of a construct. -/
inductive Malformation where
  | notNode (found : Shape)
  | keyCount (count : Nat)
  | notText (tag : String) (found : Shape)
  | wrongTag (expected found : String)
  | notSequence (found : Shape)
  | alternatives (count : Nat)
  | missingField (construct tag : String)
  | fieldNotText (construct tag : String) (found : Shape)
  | unexpectedField (construct tag : String)
  | documents (count : Nat)
  | identifier (name : String)
  | emptyExpression
  | misplacedElement (tag : String)
  | danglingExpression
  | emptyTerm
  | blankLiteral
  | notCollection
  | setTargetChoice
  | setTargetNotPlace
  | fieldsOfKeyword (tag : String)
  | emptyFor
  | forExpressions (count : Nat)
  | elseCondition
  | misplacedBranch (tag : String)
  | withoutIf
  | emptyMatch
  | branchAfterDefault
  | withoutBranches
deriving DecidableEq, Repr

namespace Malformation

def message : Malformation → String
  | notNode found => "expected a tagged node, found " ++ found.description
  | keyCount count => "a tagged node must have exactly one key, found " ++ Nat.repr count
  | notText tag found => "'" ++ tag ++ "' must hold text, found " ++ found.description
  | wrongTag expected found => "expected '" ++ expected ++ "', found '" ++ found ++ "'"
  | notSequence found => "expected a sequence of tagged nodes, found " ++ found.description
  | alternatives count => "expected exactly one alternative, found " ++ Nat.repr count
  | missingField construct tag => construct ++ " is missing '" ++ tag ++ "'"
  | fieldNotText construct tag found =>
    "'" ++ tag ++ "' in " ++ construct ++ " must hold text, found " ++ found.description
  | unexpectedField construct tag => "unexpected field '" ++ tag ++ "' in " ++ construct
  | documents count => "expected one top-level document, found " ++ Nat.repr count
  | identifier name => "'" ++ name ++ "' is not a valid identifier"
  | emptyExpression => "empty expression"
  | misplacedElement tag => "'" ++ tag ++ "' out of place in expression"
  | danglingExpression => "expression ends without an operand"
  | emptyTerm => "empty term"
  | blankLiteral => "literal without text"
  | notCollection => "expected a collection literal"
  | setTargetChoice => "set_statement needs exactly one of 'identifier' or 'place_term'"
  | setTargetNotPlace => "set_statement target is not a place"
  | fieldsOfKeyword tag => "'" ++ tag ++ "' takes no fields"
  | emptyFor => "empty for_loop"
  | forExpressions count => "for_loop takes one or two expressions, found " ++ Nat.repr count
  | elseCondition => "else_branch takes no condition"
  | misplacedBranch tag => "'" ++ tag ++ "' out of place in if_block"
  | withoutIf => "if_block without an if_branch"
  | emptyMatch => "empty match_block"
  | branchAfterDefault => "match_branch after the default branch"
  | withoutBranches => "match_block without branches"

end Malformation

/-- A closed list of words, one of which was expected. -/
inductive Vocabulary where
  | statementKind
  | assignmentOperator
  | literalKind
  | method
  | unaryOperator
  | binaryOperator
  | expressionElement
  | termPostfix
  | baseExpression
  | forField
  | ifBranch
  | matchField
  | branchField
deriving DecidableEq, Repr

def Vocabulary.description : Vocabulary → String
  | statementKind => "statement kind"
  | assignmentOperator => "assignment operator"
  | literalKind => "literal kind"
  | method => "method"
  | unaryOperator => "unary operator"
  | binaryOperator => "infix operator"
  | expressionElement => "expression element"
  | termPostfix => "term postfix"
  | baseExpression => "base expression"
  | forField => "for_loop field"
  | ifBranch => "if_block branch"
  | matchField => "match_block field"
  | branchField => "match_branch field"

/-- A name is used against its declaration. -/
inductive Misuse where
  | redeclared (name : String)
  | undeclared (name : String)
  | afterMove (name : String)
  | notMutable (name : String)
  | notPassable (name : String) (accessor : Accessor)
  | moveInLoop (name : String)
  | moveOfPart (parameter function : String)
  | undefinedFunction (function : String)
  | redefinedFunction (function : String)
  | withoutMain
  | argumentCount (function : String) (expected given : Nat)
  | wrongAccessor (function parameter : String)
  | methodAccessor (method : Method)
  | methodArgumentCount (method : Method) (given : Nat)
  | withoutMutateSymbol (method : Method)
  | needlessMutateSymbol (method : Method)
  | methodOfTemporary (method : Method)
  | outsideLoop (keyword : String)
deriving DecidableEq, Repr

namespace Misuse

def message : Misuse → String
  | redeclared name => "Variable '" ++ name ++ "' is already defined in this scope."
  | undeclared name => "Variable '" ++ name ++ "' is not defined."
  | afterMove name => "Variable '" ++ name ++ "' is used after being moved."
  | notMutable name => "Variable '" ++ name ++ "' cannot be mutated."
  | notPassable name accessor =>
    "Variable '" ++ name ++ "' cannot be passed with accessor '" ++ accessor.name ++ "'."
  | moveInLoop name =>
    "Variable '" ++ name ++ "' is moved in a loop where it may be accessed again."
  | moveOfPart parameter function =>
    "Only a variable can be passed with accessor 'move' (parameter '" ++ parameter ++ "' of '"
      ++ function ++ "')."
  | undefinedFunction function => "Function '" ++ function ++ "' is not defined."
  | redefinedFunction function => "Function '" ++ function ++ "' is defined more than once."
  | withoutMain => "No 'main()' function is defined."
  | argumentCount function expected given =>
    "Function '" ++ function ++ "' expects " ++ Nat.repr expected ++ " argument(s) but "
      ++ Nat.repr given ++ " were given."
  | wrongAccessor function parameter =>
    "Function '" ++ function ++ "' is called with incorrect accessor for parameter '" ++ parameter
      ++ "'."
  | methodAccessor method =>
    "Arguments to method '" ++ method.name ++ "' cannot carry an accessor."
  | methodArgumentCount method given =>
    "Method '" ++ method.name ++ "' expects " ++ Nat.repr method.arity ++ " argument(s) but "
      ++ Nat.repr given ++ " were given."
  | withoutMutateSymbol method =>
    "Method '" ++ method.name
      ++ "' mutates its receiver and must be called with the mutate symbol."
  | needlessMutateSymbol method =>
    "Method '" ++ method.name ++ "' does not mutate its receiver."
  | methodOfTemporary method =>
    "Method '" ++ method.name ++ "' must be called on a variable."
  | outsideLoop keyword => "'" ++ keyword ++ "' is used outside of a loop."

end Misuse

/-- A type, a literal or a returned value does not fit its place. -/
inductive Mismatch where
  | unknownType (base : String)
  | withoutTypeParameter (base : String)
  | needlessTypeParameter (base : String)
  | invalidLiteral (kind text : String)
  | setTarget
  | unwantedValue
  | withoutValue
  | fallsThrough (function : String)
  | mainSignature
deriving DecidableEq, Repr

namespace Mismatch

def message : Mismatch → String
  | unknownType base => "Unknown type: " ++ base ++ "."
  | withoutTypeParameter base => "Type '" ++ base ++ "' requires a type parameter."
  | needlessTypeParameter base => "Type '" ++ base ++ "' does not take a type parameter."
  | invalidLiteral kind text => "Invalid " ++ kind ++ " literal " ++ text ++ "."
  | setTarget => "Invalid expression for left-hand side of 'set' statement."
  | unwantedValue => "A function without a return type cannot return a value."
  | withoutValue => "Return statement is missing a value."
  | fallsThrough function =>
    "Function '" ++ function ++ "' is missing a return value in at least one execution path."
  | mainSignature => "'main()' cannot take parameters or return a value."

end Mismatch

inductive Error where
  | malformed (cause : Malformation)
  | duplicateField (construct tag : String)
  | unknown (vocabulary : Vocabulary) (word : String)
  | invalidAccessor (token : String)
  | misuse (cause : Misuse)
  | mismatch (cause : Mismatch)
deriving DecidableEq, Repr

def Error.message : Error → String
  | malformed cause => "Malformed parse tree: " ++ cause.message
  | duplicateField construct tag => "Duplicate field '" ++ tag ++ "' in " ++ construct
  | unknown vocabulary word => "Unrecognized " ++ vocabulary.description ++ " '" ++ word ++ "'"
  | invalidAccessor token => "Invalid accessor '" ++ token ++ "'"
  | misuse cause => cause.message
  | mismatch cause => cause.message

/-- The value that a table gives for a word, or the word itself as an error. -/
def Vocabulary.require (vocabulary : Vocabulary) (word : String) : Option α → Except Error α
  | some value => .ok value
  | none => .error (.unknown vocabulary word)

end Lowering
