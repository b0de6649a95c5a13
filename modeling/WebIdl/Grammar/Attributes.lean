import WebIdl.Attribute
import WebIdl.Grammar.Literals
import WebIdl.Grammar.Types

/-!
# Reading arguments and extended attributes

Arguments may carry extended attributes and those may take arguments. An argument inside an
attribute starts behind the bracket of that attribute, so the nesting is bounded by the number
of tokens left. `argument` and `extendedAttribute` are single layers over the reader of what is
nested in them.
-/

namespace WebIdl.Grammar

variable {m : Type → Type} [Monad m] [MonadStateOf Cursor m] [MonadExceptOf ParseError m]

/-- Three `.` with nothing between them. -/
def ellipsis : m Bool := do
  skip
  let dots ← attempt do
    let first ← token .other (some ".")
    let second ← if first.isSome then token .other (some ".") else pure none
    if second.isSome then token .other (some ".") else return none
  return dots.isSome

/-- A type with a name behind it. Without both there is no argument, and nothing is read. -/
def argument (d : Dialect) (attributes : m (List ExtendedAttribute)) :
    m (Option Argument) :=
  attempt do
    let leading ← trivia d
    let extAttrs ← attributes
    let afterAttrs ← trivia d
    let optional ← keyword "optional"
    match ← idlType with
    | none => return none
    | some type =>
      let variadic ← if optional then pure false else ellipsis
      match ← identifier with
      | none => return none
      | some name =>
        let default ← if optional then defaultValue else pure none
        let trailing ← trivia d
        return some
          { extAttrs, optional, variadic, type, name, default, leading, afterAttrs, trailing }

def argumentsWith (argument : m (Option Argument)) : m (Option (List Argument)) :=
  commaSeparated argument (expect .trailingArgumentComma argument)

/-- `A, B`. Without both types nothing is read. -/
def typePair : m (Option (IdlType × IdlType)) :=
  attempt do
    match ← idlType with
    | none => return none
    | some key =>
      if ← symbol "," then
        return (← idlType).map (key, ·)
      else
        return none

/-- `, b, c`: the names behind the first. -/
def moreNames : m (List String) :=
  afterCommas (expectIdentifier .trailingNameComma)

/-- `(Window, Worker)` from the first name on. The first name may be missing. -/
def nameList : m (List String) := do
  let first ← identifier
  return first.toList ++ (← moreNames)

/-- `=Value` behind the name of an attribute. -/
def attributeValue : m AttributeValue := do
  if ← symbol "=" then
    match ← identifier with
    | some name => return .identifier name
    | none =>
      if ← symbol "(" then
        let names ← nameList
        expectSymbol ")" .unclosedAttributeParameters
        return .identifierList names
      else
        fail .noAttributeValue
  else
    return .absent

/-- `(…)` behind the name or the value of an attribute: arguments if there are any, else two
types, else nothing. -/
def attributeParameters (argument : m (Option Argument)) : m AttributeParameters := do
  if ← symbol "(" then
    let parameters ← firstOf
      [mapped .arguments (argumentsWith argument),
        mapped (fun (key, value) => .typePair key value) typePair]
    expectSymbol ")" .unclosedAttributeParameters
    return parameters.getD (.arguments [])
  else
    return .absent

def extendedAttribute (argument : m (Option Argument)) :
    m (Option ExtendedAttribute) := do
  match ← identifier with
  | none => return none
  | some name =>
    let value ← attributeValue
    let parameters ← attributeParameters argument
    return some { name, value, parameters }

/-- `[A, B=C, …]`, or no attributes where no bracket opens. -/
def extendedAttributesWith (argument : m (Option Argument)) :
    m (List ExtendedAttribute) := do
  if ← symbol "[" then
    let first ← expect .emptyAttributes (extendedAttribute argument)
    let others ← afterCommas (expect .trailingAttributeComma (extendedAttribute argument))
    expectSymbol "]" .unclosedAttributes
    return first :: others
  else
    return []

def extendedAttributesWithin (d : Dialect) : Nat → m (List ExtendedAttribute)
  | 0 => return []
  | depth + 1 =>
    extendedAttributesWith (argument d (extendedAttributesWithin d depth))

def extendedAttributes (d : Dialect) : m (List ExtendedAttribute) :=
  bounded (extendedAttributesWithin d)

/-- The arguments of an operation or a callback, none where no argument stands. -/
def argumentList (d : Dialect) : m (List Argument) := do
  return (← argumentsWith (argument d (extendedAttributes d))).getD []

end WebIdl.Grammar
