import WebIdl.Grammar.Reader
import WebIdl.IdlType

/-!
# Reading types

A type inside a type starts behind at least one token of the outer one, so types nest no deeper
than the number of tokens left. `idlTypeWith` is one layer of the grammar over the reader of the
types inside; `idlType` closes it under that bound.
-/

namespace WebIdl.Grammar

variable {m : Type → Type} [Monad m] [MonadStateOf Cursor m] [MonadExceptOf ParseError m]

def integerType : m (Option Primitive) := do
  let unsigned ← keyword "unsigned"
  if ← keyword "short" then
    return some (.integer unsigned .short)
  else if ← keyword "long" then
    let double ← keyword "long"
    return some (.integer unsigned (if double then .longLong else .long))
  else if unsigned then
    fail .incompleteInteger
  else
    return none

def floatType : m (Option Primitive) := do
  let unrestricted ← keyword "unrestricted"
  if ← keyword "float" then
    return some (.float unrestricted)
  else if ← keyword "double" then
    return some (.double unrestricted)
  else if unrestricted then
    fail .incompleteFloat
  else
    return none

/-- A type that is a single keyword. -/
def plainType (word : String) (p : Primitive) : m (Option Primitive) := do
  return if ← keyword word then some p else none

def primitiveType : m (Option Primitive) :=
  firstOf [integerType, floatType, plainType "boolean" .boolean, plainType "byte" .byte,
    plainType "octet" .octet]

/-- One more `?` or `[]`. -/
def moreSuffix (s : Suffix) : m (Option Suffix) := do
  if ← symbol "?" then
    if s.nullable then fail .nullableTwice else return some s.makeNullable
  else if ← symbol "[" then
    expectSymbol "]" .unclosedArray
    return some s.makeArray
  else
    return none

/-- The suffixes of a type, in any order and number. -/
def suffixes : m Suffix :=
  iterate moreSuffix {}

/-- What follows the name of a type that is no primitive. -/
def namedType (inner : m (Option IdlType)) (name : String) : m IdlType := do
  if ← symbol "<" then
    let t ← expect (.genericArgument name) inner
    expectSymbol ">" (.unclosedGeneric name)
    return .generic name t (← suffixes)
  else
    let s ← suffixes
    if name = "any" ∧ s.nullable ∧ s.array = [] then
      fail .nullableAny
    else
      return .named name s

/-- A primitive, a name or a generic type. -/
def singleType (inner : m (Option IdlType)) : m (Option IdlType) := do
  match ← primitiveType with
  | some p => return some (.primitive p (← suffixes))
  | none =>
    match ← identifier with
    | some name => return some (← namedType inner name)
    | none => return none

/-- `(A or B or …)`. -/
def unionType (inner : m (Option IdlType)) : m (Option IdlType) := do
  if ← symbol "(" then
    let first ← expect .emptyUnion inner
    let others ← many do
      if ← keyword "or" then
        return some (← expect .noUnionMember inner)
      else
        return none
    expectSymbol ")" .unclosedUnion
    if others.isEmpty then
      fail .lonelyUnionMember
    else
      return some (.union (first :: others) (← suffixes))
  else
    return none

def idlTypeWith (inner : m (Option IdlType)) : m (Option IdlType) :=
  firstOf [singleType inner, unionType inner]

def idlTypeWithin : Nat → m (Option IdlType)
  | 0 => return none
  | depth + 1 => idlTypeWith (idlTypeWithin depth)

def idlType : m (Option IdlType) :=
  bounded idlTypeWithin

def returnType : m IdlType :=
  expect .noReturnType idlType

end WebIdl.Grammar
