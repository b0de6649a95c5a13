import WebIdl.Definition
import WebIdl.Json

/-!
# Trees as JSON

The JSON form of every part of a tree. Empty lists of attributes and trivia are left out, and so
are absent values, parameters and defaults; an absent base, name or return type is null. The
fields of a kind stand beside those that all definitions or all members have.
-/

namespace WebIdl

open Json

def Trivia.toJson : Trivia → Json
  | whitespace s => variant "whitespace" (.string s)
  | lineComment s => variant "line-comment" (.string s)
  | blockComment s => variant "block-comment" (.string s)

def triviaField (name : String) (items : List Trivia) : List (String × Json) :=
  fieldUnlessEmpty name (items.map Trivia.toJson)

def nameList (names : List String) : Json :=
  .array (names.map .string)

/-- A type from the JSON of what stands in front of its suffixes. -/
def Suffix.apply (s : Suffix) (kind : String) (value : Json) : Json :=
  .object
    [("kind", .object [("kind", .string kind), ("value", value)]),
      ("nullable", .bool s.nullable), ("array", .array (s.array.map .bool))]

mutual

def IdlType.toJson : IdlType → Json
  | .primitive p s => s.apply "primitive" (.string p.spelling)
  | .named name s => s.apply "named" (.string name)
  | .generic name inner s =>
    s.apply "generic" (.object [("name", .string name), ("inner", inner.toJson)])
  | .union members s => s.apply "union" (.array (typesToJson members))

def typesToJson : List IdlType → List Json
  | [] => []
  | t :: ts => t.toJson :: typesToJson ts

end

def Literal.toJson : Literal → Json
  | boolean b => variant "boolean" (.bool b)
  | null => tagged "null" []
  | infinity negative => variant "infinity" (.object [("negative", .bool negative)])
  | nan => tagged "na-n" []
  | number spelling => variant "number" (.string spelling)
  | string s => variant "string" (.string s)
  | emptySequence => tagged "empty-sequence" []

def AttributeValue.toJson? : AttributeValue → Option Json
  | absent => none
  | identifier name => some (variant "identifier" (.string name))
  | identifierList names => some (variant "identifier-list" (nameList names))

mutual

def ExtendedAttribute.toJson : ExtendedAttribute → Json
  | ⟨name, value, parameters⟩ =>
    .object (("name", .string name) :: fieldIfPresent "rhs" value.toJson? ++
      fieldIfPresent "params" parameters.toJson?)

def AttributeParameters.toJson? : AttributeParameters → Option Json
  | .absent => none
  | .arguments args => some (variant "arguments" (.array (argumentsToJson args)))
  | .typePair key value =>
    some (variant "type-pair" (.array [key.toJson, value.toJson]))

def Argument.toJson : Argument → Json
  | { extAttrs, optional, variadic, type, name, default, leading, afterAttrs, trailing } =>
    .object (fieldUnlessEmpty "ext_attrs" (attributesToJson extAttrs) ++
      [("optional", .bool optional), ("variadic", .bool variadic), ("idlType", type.toJson),
        ("name", .string name)] ++
      fieldIfPresent "default" (default.map Literal.toJson) ++
      triviaField "leading" leading ++ triviaField "after_attrs" afterAttrs ++
      triviaField "trailing" trailing)

def argumentsToJson : List Argument → List Json
  | [] => []
  | a :: as => a.toJson :: argumentsToJson as

def attributesToJson : List ExtendedAttribute → List Json
  | [] => []
  | a :: as => a.toJson :: attributesToJson as

end

/-- A field of extended attributes, left out where there are none. -/
def attributesField (name : String) (attributes : List ExtendedAttribute) :
    List (String × Json) :=
  fieldUnlessEmpty name (attributesToJson attributes)

def argumentsField (args : List Argument) : String × Json :=
  ("arguments", .array (argumentsToJson args))

def optionalName (name : String) (value : Option String) : String × Json :=
  (name, orNull (value.map .string))

namespace Typedef

def fields (t : Typedef) : List (String × Json) :=
  attributesField "typeExtAttrs" t.typeExtAttrs ++
    triviaField "after_type_attrs" t.afterTypeAttrs ++
    [("idlType", t.type.toJson), ("name", .string t.name)]

end Typedef

def Const.fields (c : Const) : List (String × Json) :=
  [("idlType", c.type.toJson), ("name", .string c.name), ("value", c.value.toJson)]

def Field.fields (f : Field) : List (String × Json) :=
  [("required", .bool f.required), ("idlType", f.type.toJson), ("name", .string f.name)] ++
    fieldIfPresent "default" (f.default.map Literal.toJson)

def Attribute.fields (a : Attribute) : List (String × Json) :=
  [("static", .bool a.isStatic), ("stringifier", .bool a.stringifier),
    ("inherit", .bool a.inherits), ("readonly", .bool a.readonly), ("idlType", a.type.toJson),
    ("name", .string a.name)]

def Operation.fields (o : Operation) : List (String × Json) :=
  Special.all.map (fun s => (s.keyword, .bool (o.specials.contains s))) ++
    [("static", .bool o.isStatic), ("stringifier", .bool o.stringifier),
      ("idlType", orNull (o.returnType.map IdlType.toJson)), optionalName "name" o.name,
      argumentsField o.arguments]

def IteratorObject.toJson? : IteratorObject → Option Json
  | absent => none
  | object => some (.string "object")
  | named name => some (.object [("named", .string name)])

def IteratorMember.fields (i : IteratorMember) : List (String × Json) :=
  ("idlType", i.returnType.toJson) :: fieldIfPresent "iteratorObject" i.object.toJson?

def Serializer.fields : Serializer → List (String × Json)
  | bare => [("form", .string "bare")]
  | named name => [("form", .string "named"), ("name", .string name)]
  | patternMap names => [("form", .string "pattern-map"), ("names", nameList names)]
  | patternList names => [("form", .string "pattern-list"), ("names", nameList names)]
  | operation returnType name arguments =>
    [("form", .string "operation"), ("idlType", returnType.toJson), optionalName "name" name,
      argumentsField arguments]

def Iterable.fields (i : Iterable) : List (String × Json) :=
  [("kind", .string i.kind.keyword), ("readonly", .bool i.readonly),
    ("idlType", .array (typesToJson i.types))]

namespace MemberKind

/-- The name of a kind of member. -/
def tag : MemberKind → String
  | const _ => "const"
  | field _ => "field"
  | .attribute _ => "attribute"
  | operation _ => "operation"
  | iterator _ => "iterator"
  | serializer _ => "serializer"
  | iterable _ => "iterable"
  | typedef _ => "typedef"

def fields : MemberKind → List (String × Json)
  | const c => c.fields
  | field f => f.fields
  | .attribute a => a.fields
  | operation o => o.fields
  | iterator i => i.fields
  | serializer s => s.fields
  | iterable i => i.fields
  | typedef t => t.fields

end MemberKind

def Member.toJson (m : Member) : Json :=
  .object (attributesField "ext_attrs" m.extAttrs ++ triviaField "leading" m.leading ++
    triviaField "after_attrs" m.afterAttrs ++ ("type", .string m.kind.tag) :: m.kind.fields)

def membersField (members : List Member) : String × Json :=
  ("members", .array (members.map Member.toJson))

def Interface.fields (i : Interface) : List (String × Json) :=
  [("name", .string i.name), ("partial", .bool i.isPartial),
    optionalName "inheritance" i.inheritance, membersField i.members] ++
    triviaField "closing" i.closing

def Dictionary.fields (d : Dictionary) : List (String × Json) :=
  [("name", .string d.name), ("partial", .bool d.isPartial),
    optionalName "inheritance" d.inheritance, membersField d.members] ++
    triviaField "closing" d.closing

def Exception.fields (e : Exception) : List (String × Json) :=
  [("name", .string e.name), optionalName "inheritance" e.inheritance,
    membersField e.members] ++
    triviaField "closing" e.closing

def Callback.fields (c : Callback) : List (String × Json) :=
  [("name", .string c.name), ("idlType", c.returnType.toJson), argumentsField c.arguments]

def EnumValue.toJson (v : EnumValue) : Json :=
  .object (("value", .string v.value) :: triviaField "leading" v.leading ++
    triviaField "trailing" v.trailing)

def Enum.fields (e : Enum) : List (String × Json) :=
  [("name", .string e.name), ("values", .array (e.values.map EnumValue.toJson)),
    ("trailing_comma", .bool e.trailingComma)] ++
    triviaField "closing" e.closing

def Implements.fields (i : Implements) : List (String × Json) :=
  [("target", .string i.target), ("implements", .string i.mixin)]

namespace DefinitionKind

/-- The name of a kind of definition. -/
def tag : DefinitionKind → String
  | interface _ => "interface"
  | .class _ => "class"
  | callback _ => "callback"
  | callbackInterface _ => "callback-interface"
  | dictionary _ => "dictionary"
  | exception _ => "exception"
  | enum _ => "enum"
  | typedef _ => "typedef"
  | implements _ => "implements"

def fields : DefinitionKind → List (String × Json)
  | interface i | .class i | callbackInterface i => i.fields
  | callback c => c.fields
  | dictionary d => d.fields
  | exception e => e.fields
  | enum e => e.fields
  | typedef t => t.fields
  | implements i => i.fields

end DefinitionKind

def Definition.toJson (d : Definition) : Json :=
  .object (attributesField "extAttrs" d.extAttrs ++ triviaField "leading" d.leading ++
    triviaField "after_attrs" d.afterAttrs ++ ("type", .string d.kind.tag) :: d.kind.fields)

def definitionsToJson (definitions : List Definition) : Json :=
  .array (definitions.map Definition.toJson)

def Program.toJson (p : Program) : Json :=
  .object (("definitions", definitionsToJson p.definitions) :: triviaField "trailing" p.trailing)

end WebIdl
