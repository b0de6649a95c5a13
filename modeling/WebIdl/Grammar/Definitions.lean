import WebIdl.Definition
import WebIdl.Grammar.Members
import WebIdl.Token.Tokenize

/-!
# Reading definitions and programs

Definitions are tried in a fixed order and the first whose keyword stands here is committed.
`parse` reads a whole token list and `parseText` a text.
-/

namespace WebIdl.Grammar

variable {m : Type → Type} [Monad m] [MonadStateOf Cursor m] [MonadExceptOf ParseError m]

def extendsKeyword (d : Dialect) : m Bool :=
  if d.allowExtends then keyword "extends" else return false

/-- `: Base`, or `extends Base` where the dialect allows it. -/
def inheritance (d : Dialect) : m (Option String) := do
  if ← symbol ":" then
    return some (← expectIdentifier .noBase)
  else if ← extendsKeyword d then
    return some (← expectIdentifier .noBase)
  else
    return none

/-- A partial definition names no base. -/
def inheritanceUnless (isPartial : Bool) (d : Dialect) : m (Option String) :=
  if isPartial then return none else inheritance d

/-- `Name : Base { members };` behind the keyword. -/
def interfaceRest (d : Dialect) (isPartial : Bool) : m Interface := do
  let name ← expectIdentifier .noInterfaceName
  let inheritance ← inheritanceUnless isPartial d
  expectSymbol "\x7b" .noInterfaceBody
  let (members, closing) ← body d (member d (interfaceMember d))
  expectSymbol ";" .unfinishedInterface
  return { name, isPartial, inheritance, members, closing }

def classKeyword (d : Dialect) : m Bool :=
  if d.allowClass then keyword "class" else return false

def interface (d : Dialect) (isPartial : Bool) : m (Option DefinitionKind) := do
  if ← keyword "interface" then
    return some (.interface (← interfaceRest d isPartial))
  else if ← classKeyword d then
    return some (.class (← interfaceRest d isPartial))
  else
    return none

/-- `Name = T (args);` behind the keyword. -/
def callbackRest (d : Dialect) : m Callback := do
  let name ← expectIdentifier .noCallbackName
  expectSymbol "=" .noCallbackAssignment
  let type ← returnType
  expectSymbol "(" .noCallbackArguments
  let arguments ← argumentList d
  expectSymbol ")" .unfinishedCallback
  expectSymbol ";" .unfinishedCallback
  return { name, returnType := type, arguments }

def callback (d : Dialect) : m (Option DefinitionKind) := do
  if ← keyword "callback" then
    if ← keyword "interface" then
      return some (.callbackInterface (← interfaceRest d false))
    else if ← classKeyword d then
      fail .callbackClass
    else
      return some (.callback (← callbackRest d))
  else
    return none

def dictionary (d : Dialect) (isPartial : Bool) : m (Option DefinitionKind) := do
  if ← keyword "dictionary" then
    let name ← expectIdentifier .noDictionaryName
    let inheritance ← inheritanceUnless isPartial d
    expectSymbol "\x7b" .noDictionaryBody
    let (members, closing) ← body d (member d dictionaryField)
    expectSymbol ";" .unfinishedDictionary
    return some (.dictionary { name, isPartial, inheritance, members, closing })
  else
    return none

def partialDefinition (d : Dialect) : m (Option DefinitionKind) := do
  if ← keyword "partial" then
    return some (← expect .lonelyPartial (firstOf [dictionary d true, interface d true]))
  else
    return none

def exception (d : Dialect) : m (Option DefinitionKind) := do
  if ← keyword "exception" then
    let name ← expectIdentifier .noExceptionName
    let inheritance ← inheritance d
    expectSymbol "\x7b" .noExceptionBody
    let (members, closing) ← body d (member d exceptionMember)
    expectSymbol ";" .unfinishedException
    return some (.exception { name, inheritance, members, closing })
  else
    return none

/-- `Name : Base { members };`, and the reasons to fail for want of the name, the body and the end.
This much interfaces, dictionaries and exceptions have in common. -/
def headedBody {α : Type} (d : Dialect) (isPartial : Bool) (noName noBody unfinished : Reason)
    (kind : m MemberKind) (f : String → Option String → List Member → List Trivia → α) : m α := do
  let name ← expectIdentifier noName
  let inheritance ← inheritanceUnless isPartial d
  expectSymbol "\x7b" noBody
  let (members, closing) ← body d (member d kind)
  expectSymbol ";" unfinished
  return f name inheritance members closing

theorem interfaceRest_eq (d : Dialect) (isPartial : Bool) :
    (interfaceRest d isPartial : m Interface) =
      headedBody d isPartial .noInterfaceName .noInterfaceBody .unfinishedInterface
        (interfaceMember d) fun name inheritance members closing =>
          { name, isPartial, inheritance, members, closing } :=
  rfl

theorem dictionary_eq (d : Dialect) (isPartial : Bool) :
    (dictionary d isPartial : m (Option DefinitionKind)) = do
      if ← keyword "dictionary" then
        headedBody d isPartial .noDictionaryName .noDictionaryBody .unfinishedDictionary
          dictionaryField fun name inheritance members closing =>
            some (.dictionary { name, isPartial, inheritance, members, closing })
      else
        return none :=
  rfl

theorem exception_eq (d : Dialect) :
    (exception d : m (Option DefinitionKind)) = do
      if ← keyword "exception" then
        headedBody d false .noExceptionName .noExceptionBody .unfinishedException
          exceptionMember fun name inheritance members closing =>
            some (.exception { name, inheritance, members, closing })
      else
        return none :=
  rfl

/-- A string literal without any of its quotes, and whether a comma stands behind it. -/
def enumValue (d : Dialect) (leading : List Trivia) : m (EnumValue × Bool) := do
  let literal ← expect .unexpectedEnumValue (token .string none)
  let trailing ← trivia d
  let comma ← symbol ","
  let value := String.ofList (literal.text.toList.filter (· != '"'))
  return ({ value, leading, trailing }, comma)

/-- `enum Name { "a", "b", };` Commas between the values may be left out. -/
def enum (d : Dialect) : m (Option DefinitionKind) := do
  if ← keyword "enum" then
    let name ← expectIdentifier .noEnumName
    expectSymbol "\x7b" .noEnumBody
    let (values, closing) ← body d (enumValue d)
    expectSymbol ";" .unfinishedEnum
    let trailingComma := (values.getLast?.map Prod.snd).getD false
    return some (.enum { name, values := values.map Prod.fst, trailingComma, closing })
  else
    return none

/-- `Target implements Mixin;` A name with something else behind it is put back. -/
def implements : m (Option DefinitionKind) :=
  attempt do
    match ← identifier with
    | none => return none
    | some target =>
      if ← keyword "implements" then
        let mixin ← expectIdentifier .incompleteImplements
        expectSymbol ";" .unfinishedImplements
        return some (.implements { target, mixin })
      else
        return none

def definitionKind (d : Dialect) : m (Option DefinitionKind) :=
  firstOf
    [callback d, interface d false, partialDefinition d, dictionary d false, exception d, enum d,
      mapped .typedef (typedef d), implements]

/-- One more definition, or the trivia at the end of the program. -/
def programEntry (d : Dialect) : m (Definition ⊕ List Trivia) := do
  let leading ← trivia d
  let extAttrs ← extendedAttributes d
  let afterAttrs ← trivia d
  match ← definitionKind d with
  | some kind => return .inl { extAttrs, leading, afterAttrs, kind }
  | none => if extAttrs.isEmpty then return .inr leading else fail .strayAttributes

def program (d : Dialect) : m Program := do
  let (definitions, trailing) ← untilDone (programEntry d)
  if (← get).atEnd then
    return { definitions, trailing }
  else
    fail .unrecognised

end WebIdl.Grammar

namespace WebIdl

/-- What may be wrong with a text. -/
inductive Error where
  | lex (e : LexError)
  | parse (e : ParseError)
deriving DecidableEq, Repr

namespace Error

/-- The message of the error inside. -/
def cause : Error → String
  | lex e => e.message
  | parse e => e.message

def message : Error → String
  | lex e => "Lexer error: " ++ e.message
  | parse e => "Parse error: " ++ e.message

/-- The line on which the text fails. -/
def line : Error → Nat
  | lex e => e.position.line
  | parse e => e.line

end Error

/-- The definitions of a token list. -/
def parse (d : Dialect) (tokens : List Token) : Except ParseError Program :=
  (Grammar.program d : Grammar.Reader Program).run' (Cursor.ofTokens tokens)

/-- The definitions of a text. -/
def parseText (d : Dialect) (text : String) : Except Error Program :=
  match tokenize text with
  | .error e => .error (.lex e)
  | .ok tokens => (parse d tokens).mapError .parse

variable {d : Dialect} {tokens : List Token} {text : String} {p : Program}

theorem parse_eq_ok_iff : parse d tokens = .ok p ↔
    ∃ c, (Grammar.program d : Grammar.Reader Program) (Cursor.ofTokens tokens) = .ok (p, c) := by
  show Except.map Prod.fst _ = _ ↔ _
  cases (Grammar.program d : Grammar.Reader Program) (Cursor.ofTokens tokens) with
  | error e => simp [Except.map]
  | ok r => simp [Except.map, Prod.ext_iff]

theorem parse_eq_error_iff {e : ParseError} : parse d tokens = .error e ↔
    (Grammar.program d : Grammar.Reader Program) (Cursor.ofTokens tokens) = .error e := by
  show Except.map Prod.fst _ = _ ↔ _
  cases (Grammar.program d : Grammar.Reader Program) (Cursor.ofTokens tokens) with
  | error e => simp [Except.map]
  | ok r => simp [Except.map]

theorem mapError_ok (f : ParseError → Error) (p : Program) : (Except.ok p).mapError f = .ok p :=
  rfl

theorem mapError_error (f : ParseError → Error) (e : ParseError) :
    (.error e : Except ParseError Program).mapError f = .error (f e) :=
  rfl

theorem parseText_eq_ok_iff :
    parseText d text = .ok p ↔ ∃ ts, tokenize text = .ok ts ∧ parse d ts = .ok p := by
  unfold parseText
  cases htokens : tokenize text with
  | error e => simp
  | ok ts => cases hparse : parse d ts <;> simp [mapError_ok, mapError_error, hparse]

theorem parseText_eq_lex_iff {e : LexError} :
    parseText d text = .error (.lex e) ↔ tokenize text = .error e := by
  unfold parseText
  cases htokens : tokenize text with
  | error e => simp
  | ok ts => cases hparse : parse d ts <;> simp [mapError_ok, mapError_error, hparse]

theorem parseText_eq_parse_iff {e : ParseError} :
    parseText d text = .error (.parse e) ↔ ∃ ts, tokenize text = .ok ts ∧ parse d ts = .error e := by
  unfold parseText
  cases htokens : tokenize text with
  | error e => simp
  | ok ts => cases hparse : parse d ts <;> simp [mapError_ok, mapError_error, hparse]

end WebIdl
