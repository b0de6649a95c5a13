import WebIdl.Definition

/-!
# Sound trees

What the data model promises of every tree, whatever tokens it was read from. The tree types
leave these things open: a union could have a single member and an attribute could be static and a
stringifier at once. The names in a tree may be anything here, since a token list that no lexer has
cut may hold any name.
-/

namespace WebIdl

/-- The thirteen names of primitive types. -/
def Primitive.spellings : List String :=
  ["short", "long", "long long", "unsigned short", "unsigned long", "unsigned long long",
    "float", "double", "unrestricted float", "unrestricted double", "boolean", "byte", "octet"]

theorem Primitive.spelling_mem (p : Primitive) : p.spelling ∈ spellings := by
  cases p with
  | integer unsigned width => cases unsigned <;> cases width <;> decide +kernel
  | float unrestricted => cases unrestricted <;> decide +kernel
  | double unrestricted => cases unrestricted <;> decide +kernel
  | boolean | byte | octet => decide +kernel

inductive IdlType.Sound : IdlType → Prop
  | primitive {p : Primitive} {s : Suffix} (hspelling : p.spelling ∈ Primitive.spellings) :
      Sound (.primitive p s)
  | named {name : String} {s : Suffix} (hany : name = "any" → s.nullable → s.array ≠ []) :
      Sound (.named name s)
  | generic {name : String} {inner : IdlType} {s : Suffix} (hinner : Sound inner) :
      Sound (.generic name inner s)
  | union {members : List IdlType} {s : Suffix} (htwo : 2 ≤ members.length)
      (hmembers : ∀ t ∈ members, Sound t) : Sound (.union members s)

/-- The type of a constant, where `any?` may stand. -/
inductive IdlType.SoundConst : IdlType → Prop
  | primitive {p : Primitive} (nullable : Bool) (hspelling : p.spelling ∈ Primitive.spellings) :
      SoundConst (.primitive p ⟨nullable, []⟩)
  | named (name : String) (nullable : Bool) : SoundConst (.named name ⟨nullable, []⟩)

mutual

inductive ExtendedAttribute.Sound : ExtendedAttribute → Prop
  | intro {e : ExtendedAttribute} (hparameters : e.parameters.Sound) : e.Sound

inductive AttributeParameters.Sound : AttributeParameters → Prop
  | absent : AttributeParameters.Sound .absent
  | arguments {args : List Argument} (h : ∀ a ∈ args, a.Sound) :
      AttributeParameters.Sound (.arguments args)
  | typePair {key value : IdlType} (hkey : key.Sound) (hvalue : value.Sound) :
      AttributeParameters.Sound (.typePair key value)

inductive Argument.Sound : Argument → Prop
  | intro {a : Argument} (hattributes : ∀ e ∈ a.extAttrs, e.Sound) (htype : a.type.Sound)
      (hdefault : a.default.isSome → a.optional) (hvariadic : ¬(a.optional ∧ a.variadic)) :
      a.Sound

end

structure Typedef.Sound (t : Typedef) : Prop where
  attributes : ∀ e ∈ t.typeExtAttrs, e.Sound
  type : t.type.Sound

/-- What a constant may be: no string and no sequence. -/
def Literal.SoundConst : Literal → Prop
  | .string _ | .emptySequence => False
  | _ => True

structure Const.Sound (c : Const) : Prop where
  type : c.type.SoundConst
  value : c.value.SoundConst

structure Field.Sound (f : Field) : Prop where
  type : f.type.Sound
  required : f.required → f.default = none

structure Attribute.Sound (a : Attribute) : Prop where
  type : a.type.Sound
  noSequence : a.type.isSequence = false
  isStatic : ¬(a.isStatic ∧ a.stringifier)
  inherits : a.inherits → a.isStatic = false ∧ a.stringifier = false

/-- `stringifier;` -/
def Operation.bare : Operation :=
  { specials := {}, isStatic := false, stringifier := true, returnType := none, name := none,
    arguments := [] }

/-- The marks of an operation, of which it may carry one. -/
def Operation.marks (o : Operation) : List Bool :=
  [!o.specials.isEmpty, o.isStatic, o.stringifier]

structure Operation.Sound (o : Operation) : Prop where
  returnType : ∀ t ∈ o.returnType, t.Sound
  arguments : ∀ a ∈ o.arguments, a.Sound
  marks : o.marks.count true ≤ 1
  bare : o.returnType = none ↔ o = Operation.bare

inductive Serializer.Sound : Serializer → Prop
  | bare : Serializer.Sound .bare
  | named (name : String) : Serializer.Sound (.named name)
  | patternMap (names : List String) : Serializer.Sound (.patternMap names)
  | patternList (names : List String) : Serializer.Sound (.patternList names)
  | operation {type : IdlType} {name : Option String} {args : List Argument} (htype : type.Sound)
      (hargs : ∀ a ∈ args, a.Sound) : Serializer.Sound (.operation type name args)

/-- The numbers of types that a declaration of the kind may have. -/
def IterableKind.typeCounts : IterableKind → List Nat
  | iterable => [1, 2]
  | maplike => [2]
  | legacyIterable | setlike => [1]

structure Iterable.Sound (i : Iterable) : Prop where
  types : ∀ t ∈ i.types, t.Sound
  count : i.types.length ∈ i.kind.typeCounts
  readonly : i.readonly → i.kind = .maplike ∨ i.kind = .setlike

inductive MemberKind.Sound : MemberKind → Prop
  | const {c : Const} (h : c.Sound) : MemberKind.Sound (.const c)
  | field {f : Field} (h : f.Sound) : MemberKind.Sound (.field f)
  | attribute {a : Attribute} (h : a.Sound) : MemberKind.Sound (.attribute a)
  | operation {o : Operation} (h : o.Sound) : MemberKind.Sound (.operation o)
  | iterator {i : IteratorMember} (h : i.returnType.Sound) : MemberKind.Sound (.iterator i)
  | serializer {s : Serializer} (h : s.Sound) : MemberKind.Sound (.serializer s)
  | iterable {i : Iterable} (h : i.Sound) : MemberKind.Sound (.iterable i)
  | typedef {t : Typedef} (h : t.Sound) : MemberKind.Sound (.typedef t)

structure Member.Sound (m : Member) : Prop where
  attributes : ∀ e ∈ m.extAttrs, e.Sound
  kind : m.kind.Sound

/-- A base stands in no partial definition. -/
structure Interface.Sound (i : Interface) : Prop where
  members : ∀ m ∈ i.members, m.Sound
  baseless : i.isPartial → i.inheritance = none

structure Dictionary.Sound (b : Dictionary) : Prop where
  members : ∀ m ∈ b.members, m.Sound
  baseless : b.isPartial → b.inheritance = none

structure Callback.Sound (c : Callback) : Prop where
  returnType : c.returnType.Sound
  arguments : ∀ a ∈ c.arguments, a.Sound

inductive DefinitionKind.Sound : DefinitionKind → Prop
  | interface {i : Interface} (h : i.Sound) : DefinitionKind.Sound (.interface i)
  | class {i : Interface} (h : i.Sound) : DefinitionKind.Sound (.class i)
  | callback {c : Callback} (h : c.Sound) : DefinitionKind.Sound (.callback c)
  | callbackInterface {i : Interface} (h : i.Sound) (hpartial : i.isPartial = false) :
      DefinitionKind.Sound (.callbackInterface i)
  | dictionary {b : Dictionary} (h : b.Sound) : DefinitionKind.Sound (.dictionary b)
  | exception {e : Exception} (h : ∀ m ∈ e.members, m.Sound) : DefinitionKind.Sound (.exception e)
  | enum {e : Enum} (h : ∀ v ∈ e.values, '"' ∉ v.value.toList) : DefinitionKind.Sound (.enum e)
  | typedef {t : Typedef} (h : t.Sound) : DefinitionKind.Sound (.typedef t)
  | implements (i : Implements) : DefinitionKind.Sound (.implements i)

structure Definition.Sound (x : Definition) : Prop where
  attributes : ∀ e ∈ x.extAttrs, e.Sound
  kind : x.kind.Sound

def Program.Sound (p : Program) : Prop :=
  ∀ x ∈ p.definitions, x.Sound

end WebIdl
