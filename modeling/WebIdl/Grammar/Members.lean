import WebIdl.Grammar.Attributes
import WebIdl.Member

/-!
# Reading members

The members of an interface body are tried in a fixed order. What begins none of them is an
error, since the body is not over yet.
-/

namespace WebIdl.Grammar

variable {m : Type → Type} [Monad m] [MonadStateOf Cursor m] [MonadExceptOf ParseError m]

/-- `typedef [TypeAttrs] T Name;` -/
def typedef (d : Dialect) : m (Option Typedef) := do
  if ← keyword "typedef" then
    let typeExtAttrs ← extendedAttributes d
    let afterTypeAttrs ← trivia d
    let type ← expect .noTypedefType idlType
    let name ← expectIdentifier .noTypedefName
    expectSymbol ";" .unfinishedTypedef
    return some { typeExtAttrs, afterTypeAttrs, type, name }
  else
    return none

/-- A primitive or a name, with at most one `?` behind it. -/
def constType : m IdlType := do
  match ← primitiveType with
  | some p => return .primitive p ⟨← symbol "?", []⟩
  | none =>
    let name ← expectIdentifier .noConstType
    return .named name ⟨← symbol "?", []⟩

/-- `const T name = value;` -/
def const : m (Option Const) := do
  if ← keyword "const" then
    let type ← constType
    let name ← expectIdentifier .noConstName
    expectSymbol "=" .noConstAssignment
    let value ← expect .noConstValue constValue
    expectSymbol ";" .unfinishedConst
    return some { type, name, value }
  else
    return none

/-- `static stringifier inherit readonly attribute T name;` Without the word `attribute` nothing
is read. -/
def attributeMember : m (Option Attribute) :=
  attempt do
    let isStatic ← keyword "static"
    let stringifier ← if isStatic then pure false else keyword "stringifier"
    let inherits ← keyword "inherit"
    if inherits && (isStatic || stringifier) then
      fail .inheritStaticOrStringifier
    else
      let readonly ← keyword "readonly"
      if ← keyword "attribute" then
        let type ← expect .noAttributeType idlType
        if type.isSequence then
          fail .sequenceAttribute
        else
          let name ← expectIdentifier .noAttributeName
          expectSymbol ";" .unfinishedAttribute
          return some { isStatic, stringifier, inherits, readonly, type, name }
      else
        return none

/-- The name, if there is one, and the arguments of an operation, up to its end. -/
def operationRest (d : Dialect) : m (Option String × List Argument) := do
  let name ← identifier
  expectSymbol "(" .invalidOperation
  let arguments ← argumentList d
  expectSymbol ")" .unfinishedOperation
  expectSymbol ";" .unfinishedOperation
  return (name, arguments)

def special (s : Special) : m (Option Special) := do
  return if ← keyword s.keyword then some s else none

/-- The special keywords, in any order and number. -/
def specials : m Specials := do
  return (← many (firstOf (Special.all.map special))).foldl Specials.insert {}

/-- `T name(args);` behind the keywords that make an operation special. -/
def markedOperation (d : Dialect) (marks : Specials) (isStatic stringifier : Bool) :
    m MemberKind := do
  let type ← returnType
  let (name, arguments) ← operationRest d
  return .operation
    { specials := marks, isStatic, stringifier, returnType := some type, name, arguments }

/-- `stringifier;` or a stringifier with a signature, behind its keyword. -/
def stringifierRest (d : Dialect) : m MemberKind := do
  if ← symbol ";" then
    return .operation
      { specials := {}, isStatic := false, stringifier := true, returnType := none, name := none,
        arguments := [] }
  else
    markedOperation d {} false true

/-- `object` or `= Name` behind `T iterator`. -/
def iteratorObject : m IteratorObject := do
  if ← keyword "object" then
    return .object
  else if ← symbol "=" then
    return .named (← expectIdentifier .noIteratorName)
  else
    return .absent

/-- What follows `T iterator`. -/
def iteratorRest (type : IdlType) : m MemberKind := do
  let produced ← iteratorObject
  expectSymbol ";" .unfinishedIterator
  return .iterator ⟨type, produced⟩

/-- Whether a name, or none, and an opening parenthesis follow. Nothing is read. -/
def callAhead : m Bool := do
  let start ← get
  let _ ← identifier
  let isCall ← symbol "("
  set start
  return isCall

/-- `T iterator …;` or `T name(args);`. A type with something else behind it is put back. -/
def plainOperation (d : Dialect) : m (Option MemberKind) :=
  attempt do
    match ← idlType with
    | none => return none
    | some type =>
      if ← keyword "iterator" then
        return some (← iteratorRest type)
      else if ← callAhead then
        let (name, arguments) ← operationRest d
        return some (.operation
          { specials := {}, isStatic := false, stringifier := false, returnType := some type,
            name, arguments })
      else
        return none

def operation (d : Dialect) : m (Option MemberKind) := do
  let marks ← specials
  if !marks.isEmpty then
    return some (← markedOperation d marks false false)
  else if ← keyword "static" then
    return some (← markedOperation d {} true false)
  else if ← keyword "stringifier" then
    return some (← stringifierRest d)
  else
    plainOperation d

/-- The names of a serializer pattern. `getter` stands alone, and so does `inherit` in a list;
in a map more names may follow it. -/
def patternNames (inheritMore : Bool) : m (List String) := do
  match ← identifier with
  | none => return []
  | some first =>
    if first = "getter" ∨ (first = "inherit" ∧ !inheritMore) then
      return [first]
    else
      return first :: (← moreNames)

/-- What follows `serializer =`. -/
def serializerPattern : m Serializer := do
  if ← symbol "\x7b" then
    let names ← patternNames true
    expectSymbol "\x7d" .unclosedSerializerMap
    return .patternMap names
  else if ← symbol "[" then
    let names ← patternNames false
    expectSymbol "]" .unclosedSerializerList
    return .patternList names
  else
    return .named (← expectIdentifier .invalidSerializer)

def serializer (d : Dialect) : m (Option Serializer) := do
  if ← keyword "serializer" then
    if ← symbol ";" then
      return some .bare
    else if ← symbol "=" then
      let pattern ← serializerPattern
      expectSymbol ";" .unfinishedSerializer
      return some pattern
    else
      let type ← returnType
      let (name, arguments) ← operationRest d
      return some (.operation type name arguments)
  else
    return none

def iterableKeyword (kind : IterableKind) : m (Option IterableKind) := do
  return if ← keyword kind.keyword then some kind else none

/-- Only `maplike` and `setlike` may be read-only. -/
def iterableKind (readonly : Bool) : m (Option IterableKind) :=
  let kinds : List IterableKind :=
    (if readonly then [] else [.iterable, .legacyIterable]) ++ [.maplike, .setlike]
  firstOf (kinds.map iterableKeyword)

/-- The second type where the kind allows one. A comma alone is read over. -/
def secondType (kind : IterableKind) : m (List IdlType) := do
  if kind.allowsSecond then
    let second ← if ← symbol "," then idlType else pure none
    if second.isNone && kind.requiresSecond then
      fail (.noSecondType kind)
    else
      return second.toList
  else
    return []

/-- `<V>;` or `<K, V>;` behind the keyword. -/
def iterableRest (readonly : Bool) (kind : IterableKind) : m Iterable := do
  expectSymbol "<" (.iterableDeclaration kind)
  let first ← expect (.iterableDeclaration kind) idlType
  let second ← secondType kind
  expectSymbol ">" (.unclosedIterable kind)
  expectSymbol ";" (.unfinishedIterable kind)
  return { kind, readonly, types := first :: second }

/-- `readonly` that no iterable keyword follows is put back. -/
def iterable : m (Option Iterable) :=
  attempt do
    let readonly ← keyword "readonly"
    match ← iterableKind readonly with
    | none => return none
    | some kind => return some (← iterableRest readonly kind)

def nestedTypedef (d : Dialect) : m (Option Typedef) :=
  if d.allowNestedTypedefs then typedef d else return none

def interfaceMember (d : Dialect) : m MemberKind :=
  expect .unknownMember <| firstOf
    [mapped .const const, mapped .typedef (nestedTypedef d), mapped .iterable iterable,
      mapped .serializer (serializer d), mapped .attribute attributeMember, operation d]

/-- A type and a name, with `;` behind them. -/
def exceptionField : m MemberKind := do
  let type ← idlType
  let name ← identifier
  match type, name with
  | some type, some name =>
    expectSymbol ";" .unknownExceptionMember
    return .field { required := false, type, name, default := none }
  | _, _ => fail .unknownExceptionMember

def exceptionMember : m MemberKind := do
  match ← const with
  | some c => return .const c
  | none => exceptionField

/-- `required T name = default;` A required field has no default. -/
def dictionaryField : m MemberKind := do
  let required ← keyword "required"
  let type ← expect .noFieldType idlType
  let name ← expectIdentifier .noFieldName
  let default ← defaultValue
  if required && default.isSome then
    fail .requiredWithDefault
  else
    expectSymbol ";" .unfinishedField
    return .field { required, type, name, default }

/-- A member with the trivia and the extended attributes in front of it. -/
def member (d : Dialect) (kind : m MemberKind) (leading : List Trivia) : m Member := do
  let extAttrs ← extendedAttributes d
  let afterAttrs ← trivia d
  return { extAttrs, leading, afterAttrs, kind := ← kind }

end WebIdl.Grammar
