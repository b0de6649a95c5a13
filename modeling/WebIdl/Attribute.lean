import WebIdl.IdlType
import WebIdl.Literal
import WebIdl.Trivia

/-!
# Extended attributes and arguments

An extended attribute may take arguments, and an argument may carry extended attributes, so the
two are defined together.
-/

namespace WebIdl

/-- The right-hand side of `Name=…`. -/
inductive AttributeValue where
  | absent
  | identifier (name : String)
  | identifierList (names : List String)
deriving DecidableEq, Repr

mutual

/-- `Name`, `Name=Value`, `Name(long a)`, `Name(A, B)`. -/
structure ExtendedAttribute where
  name : String
  value : AttributeValue
  parameters : AttributeParameters

/-- The part of an extended attribute in parentheses. -/
inductive AttributeParameters where
  | absent
  | arguments (args : List Argument)
  | typePair (key value : IdlType)

/-- An argument of an operation, a callback or an extended attribute. -/
structure Argument where
  extAttrs : List ExtendedAttribute
  optional : Bool
  variadic : Bool
  type : IdlType
  name : String
  default : Option Literal
  /-- In front of the argument and its extended attributes. -/
  leading : List Trivia
  /-- Behind the extended attributes. -/
  afterAttrs : List Trivia
  /-- In front of the comma or parenthesis that follows. -/
  trailing : List Trivia

end

/-- The argument list of an attribute that has one. -/
def ExtendedAttribute.arguments? (a : ExtendedAttribute) : Option (List Argument) :=
  match a.parameters with
  | .arguments args => some args
  | _ => none

end WebIdl
