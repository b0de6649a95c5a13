import WebIdl.Definition
import WebIdl.Token.Numeral

/-!
# How trees are written

The tokens that each part of a tree is written with, blanks included. Written text is the source
of those tokens, so what is written and what is read are told in the same terms. The form is
compact: members follow each other without blanks, and only kept trivia brings the layout of the
source back.
-/

namespace WebIdl.Spelling

open Token

def space : Token :=
  blank " "

/-- Lists of tokens with the tokens of a separator between each pair. -/
def joined (separator : List Token) : List (List Token) → List Token
  | [] => []
  | [ts] => ts
  | ts :: us :: rest => ts ++ separator ++ joined separator (us :: rest)

/-- Words with single blanks between them. -/
def words (ws : List String) : List Token :=
  joined [space] (ws.map fun w => [word w])

/-- A word and a blank, where the flag is set. -/
def wordIf (flag : Bool) (w : String) : List Token :=
  if flag then [word w, space] else []

def trivia (items : List Trivia) : List Token :=
  items.map Trivia.token

def ofSuffix (s : Suffix) : List Token :=
  let questionIf (flag : Bool) : List Token := if flag then [mark "?"] else []
  s.array.flatMap (fun nullable => questionIf nullable ++ [mark "[", mark "]"]) ++
    questionIf s.nullable

mutual

def ofType : IdlType → List Token
  | .primitive p s => words p.words ++ ofSuffix s
  | .named name s => word name :: ofSuffix s
  | .generic name inner s => word name :: mark "<" :: ofType inner ++ mark ">" :: ofSuffix s
  | .union members s => mark "(" :: ofMembers members ++ mark ")" :: ofSuffix s

/-- The members of a union with `or` between them. -/
def ofMembers : List IdlType → List Token
  | [] => []
  | [t] => ofType t
  | t :: u :: rest => ofType t ++ [space, word "or", space] ++ ofMembers (u :: rest)

end

/-- A numeral is a float unless the shorter rule of integers takes all of it. -/
def ofNumeral (spelling : String) : Token :=
  let cs := spelling.toList
  if Numeral.floatLength cs = cs.length then ⟨.float, spelling⟩ else ⟨.integer, spelling⟩

def quoted (value : String) : Token :=
  ⟨.string, "\"" ++ value ++ "\""⟩

def ofLiteral : Literal → List Token
  | .boolean true => [word "true"]
  | .boolean false => [word "false"]
  | .null => [word "null"]
  | .infinity true => [mark "-", word "Infinity"]
  | .infinity false => [word "Infinity"]
  | .nan => [word "NaN"]
  | .number spelling => [ofNumeral spelling]
  | .string value => [quoted value]
  | .emptySequence => [mark "[", mark "]"]

/-- ` = value`, where there is one. -/
def ofDefault : Option Literal → List Token
  | none => []
  | some value => space :: mark "=" :: space :: ofLiteral value

def ofValue : AttributeValue → List Token
  | .absent => []
  | .identifier name => [mark "=", word name]
  | .identifierList names =>
    mark "=" :: mark "(" :: joined [mark ","] (names.map fun n => [word n]) ++ [mark ")"]

/-- Attributes in brackets with the trivia behind them, or one blank where there is none. Without
attributes there is the trivia alone. -/
def bracketed (attributes : List Token) (after : List Trivia) : List Token :=
  if attributes.isEmpty then trivia after
  else
    mark "[" :: attributes ++ mark "]" :: (if after.isEmpty then [space] else trivia after)

mutual

def ofAttribute : ExtendedAttribute → List Token
  | ⟨name, value, parameters⟩ => word name :: ofValue value ++ ofParameters parameters

def ofParameters : AttributeParameters → List Token
  | .absent => []
  | .arguments args => mark "(" :: ofArguments args ++ [mark ")"]
  | .typePair key value =>
    mark "(" :: ofType key ++ mark "," :: space :: ofType value ++ [mark ")"]

def ofArgument : Argument → List Token
  | { extAttrs, optional, variadic, type, name, default, leading, afterAttrs, trailing } =>
    trivia leading ++ bracketed (ofAttributes extAttrs) afterAttrs ++ wordIf optional "optional" ++
      ofType type ++ (if variadic then [mark ".", mark ".", mark "."] else []) ++
      space :: word name :: ofDefault default ++ trivia trailing

/-- Arguments with commas between them. A blank follows a comma where no trivia does. -/
def ofArguments : List Argument → List Token
  | [] => []
  | a :: as => ofArgument a ++ ofMoreArguments as

def ofMoreArguments : List Argument → List Token
  | [] => []
  | a :: as =>
    mark "," :: (if a.leading.isEmpty then [space] else []) ++ ofArgument a ++ ofMoreArguments as

def ofAttributes : List ExtendedAttribute → List Token
  | [] => []
  | [a] => ofAttribute a
  | a :: b :: rest => ofAttribute a ++ mark "," :: space :: ofAttributes (b :: rest)

end

def ofTypedef (t : Typedef) : List Token :=
  word "typedef" :: space :: bracketed (ofAttributes t.typeExtAttrs) t.afterTypeAttrs ++
    ofType t.type ++ [space, word t.name, mark ";"]

def ofConst (c : Const) : List Token :=
  word "const" :: space :: ofType c.type ++
    space :: word c.name :: ofDefault (some c.value) ++ [mark ";"]

def ofField (f : Field) : List Token :=
  wordIf f.required "required" ++ ofType f.type ++
    space :: word f.name :: ofDefault f.default ++ [mark ";"]

def ofAttributeMember (a : Attribute) : List Token :=
  wordIf a.isStatic "static" ++ wordIf a.stringifier "stringifier" ++ wordIf a.inherits "inherit" ++
    wordIf a.readonly "readonly" ++
    word "attribute" :: space :: ofType a.type ++ [space, word a.name, mark ";"]

/-- `T name(args);`, the name being optional. -/
def signature (type : IdlType) (name : Option String) (args : List Argument) : List Token :=
  ofType type ++ (name.toList.flatMap fun n => [space, word n]) ++
    mark "(" :: ofArguments args ++ [mark ")", mark ";"]

/-- Without a return type an operation is the bare stringifier. -/
def ofOperation (o : Operation) : List Token :=
  match o.returnType with
  | none => [word "stringifier", mark ";"]
  | some type =>
    o.specials.toList.flatMap (fun s => [word s.keyword, space]) ++
      wordIf o.stringifier "stringifier" ++ wordIf o.isStatic "static" ++
      signature type o.name o.arguments

def ofIterator (i : IteratorMember) : List Token :=
  ofType i.returnType ++ space :: word "iterator" ::
    (match i.object with
      | .absent => []
      | .object => [space, word "object"]
      | .named name => [space, mark "=", space, word name]) ++
    [mark ";"]

/-- Names with a comma and a blank between them. -/
def nameList (names : List String) : List Token :=
  joined [mark ",", space] (names.map fun n => [word n])

def ofSerializer : Serializer → List Token
  | .bare => [word "serializer", mark ";"]
  | .named name => [word "serializer", space, mark "=", space, word name, mark ";"]
  | .patternMap names =>
    [word "serializer", space, mark "=", space, mark "\x7b"] ++ nameList names ++
      [mark "\x7d", mark ";"]
  | .patternList names =>
    [word "serializer", space, mark "=", space, mark "["] ++ nameList names ++
      [mark "]", mark ";"]
  | .operation returnType name arguments =>
    word "serializer" :: space :: signature returnType name arguments

def ofIterable (i : Iterable) : List Token :=
  wordIf i.readonly "readonly" ++ word i.kind.keyword :: mark "<" ::
    joined [mark ",", space] (i.types.map ofType) ++ [mark ">", mark ";"]

def ofMemberKind : MemberKind → List Token
  | .const c => ofConst c
  | .field f => ofField f
  | .attribute a => ofAttributeMember a
  | .operation o => ofOperation o
  | .iterator i => ofIterator i
  | .serializer s => ofSerializer s
  | .iterable i => ofIterable i
  | .typedef t => ofTypedef t

def ofMember (m : Member) : List Token :=
  trivia m.leading ++ bracketed (ofAttributes m.extAttrs) m.afterAttrs ++ ofMemberKind m.kind

/-- `partial keyword Name : Base`. -/
def header (keywords : List String) (name : String) (isPartial : Bool)
    (inheritance : Option String) : List Token :=
  wordIf isPartial "partial" ++ words keywords ++ space :: word name ::
    inheritance.toList.flatMap fun base => [space, mark ":", space, word base]

/-- ` {body};` -/
def block (entries : List Token) (closing : List Trivia) : List Token :=
  space :: mark "\x7b" :: entries ++ trivia closing ++ [mark "\x7d", mark ";"]

def members (ms : List Member) : List Token :=
  ms.flatMap ofMember

def ofInterface (keywords : List String) (i : Interface) : List Token :=
  header keywords i.name i.isPartial i.inheritance ++ block (members i.members) i.closing

def ofDictionary (d : Dictionary) : List Token :=
  header ["dictionary"] d.name d.isPartial d.inheritance ++ block (members d.members) d.closing

def ofException (e : Exception) : List Token :=
  header ["exception"] e.name false e.inheritance ++ block (members e.members) e.closing

def ofCallback (c : Callback) : List Token :=
  [word "callback", space, word c.name, space, mark "=", space] ++
    signature c.returnType none c.arguments

def ofEnumValue (v : EnumValue) : List Token :=
  trivia v.leading ++ quoted v.value :: trivia v.trailing

/-- Values with commas between them, and one behind the last where the source had it. -/
def ofEnumValues (trailingComma : Bool) : List EnumValue → List Token
  | [] => []
  | [v] => ofEnumValue v ++ (if trailingComma then [mark ","] else [])
  | v :: w :: rest => ofEnumValue v ++ mark "," :: ofEnumValues trailingComma (w :: rest)

def ofEnum (e : Enum) : List Token :=
  header ["enum"] e.name false none ++ block (ofEnumValues e.trailingComma e.values) e.closing

def ofImplements (i : Implements) : List Token :=
  [word i.target, space, word "implements", space, word i.mixin, mark ";"]

def ofDefinitionKind : DefinitionKind → List Token
  | .interface i => ofInterface ["interface"] i
  | .class i => ofInterface ["class"] i
  | .callbackInterface i => ofInterface ["callback", "interface"] i
  | .callback c => ofCallback c
  | .dictionary d => ofDictionary d
  | .exception e => ofException e
  | .enum e => ofEnum e
  | .typedef t => ofTypedef t
  | .implements i => ofImplements i

def ofDefinition (d : Definition) : List Token :=
  trivia d.leading ++ bracketed (ofAttributes d.extAttrs) d.afterAttrs ++ ofDefinitionKind d.kind

/-- Definitions in order. One that has no trivia in front of it is put on a line of its own. -/
def ofMoreDefinitions : List Definition → List Token
  | [] => []
  | d :: ds =>
    (if d.leading.isEmpty then [blank "\n"] else []) ++ ofDefinition d ++ ofMoreDefinitions ds

def ofDefinitions : List Definition → List Token
  | [] => []
  | d :: ds => ofDefinition d ++ ofMoreDefinitions ds

end WebIdl.Spelling

namespace WebIdl

/-- A type as it is shown in messages and listings. -/
def IdlType.write (t : IdlType) : String :=
  Token.source (Spelling.ofType t)

def Literal.write (l : Literal) : String :=
  Token.source (Spelling.ofLiteral l)

def writeArguments (args : List Argument) : String :=
  Token.source (Spelling.ofArguments args)

def Member.write (m : Member) : String :=
  Token.source (Spelling.ofMember m)

def Definition.write (d : Definition) : String :=
  Token.source (Spelling.ofDefinition d)

def writeDefinitions (ds : List Definition) : String :=
  Token.source (Spelling.ofDefinitions ds)

/-- The definitions and the trivia behind the last one. -/
def Program.write (p : Program) : String :=
  Token.source (Spelling.ofDefinitions p.definitions ++ Spelling.trivia p.trailing)

end WebIdl
