import Lowering.Error

/-! Signatures: what a call needs to know of the function it names. They are collected before
any body is lowered, so functions may call each other whatever their order. -/

namespace Lowering

structure Signature where
  parameters : List (String × Accessor)
  hasResult : Bool
deriving DecidableEq, Repr

/-- The signatures of functions with distinct names, the latest first. -/
structure Signatures where
  entries : List (String × Signature) := []
deriving DecidableEq, Repr

namespace Signatures

def get? (signatures : Signatures) (name : String) : Option Signature :=
  signatures.entries.lookup name

def contains (signatures : Signatures) (name : String) : Bool :=
  (signatures.get? name).isSome

def size (signatures : Signatures) : Nat :=
  signatures.entries.length

def isEmpty (signatures : Signatures) : Bool :=
  signatures.entries.isEmpty

def insert (signatures : Signatures) (name : String) (signature : Signature) :
    Except Error Signatures :=
  if signatures.contains name then .error (.misuse (.redefinedFunction name))
  else .ok ⟨(name, signature) :: signatures.entries⟩

/-- The signature that a call with some number of arguments refers to. -/
def forCall (signatures : Signatures) (name : String) (arguments : Nat) : Except Error Signature :=
  match signatures.get? name with
  | none => .error (.misuse (.undefinedFunction name))
  | some signature =>
    if signature.parameters.length = arguments then .ok signature
    else .error (.misuse (.argumentCount name signature.parameters.length arguments))

end Signatures
end Lowering
