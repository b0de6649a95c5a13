import WebIdl.Dialect
import WebIdl.Proofs.Lexing.Lexable

/-!
# Well-formed trees

The trees that a parse can answer under a dialect. Most of it is what the grammar says of each
construct: names are names, a union has two members, a required field has no default. The rest is
about words that would be read as something else, since the grammar has no reserved words: an
operation that returns a type named `attribute` is not an operation when it is read again. `Begins`
tells such cases by the first words of what is written.
-/

namespace WebIdl

open Token Spelling

/-- The words come first in the list, blanks aside. -/
def Token.Begins (ws : List String) (ts : List Token) : Prop :=
  ws.map word <+: solids ts

instance (ws : List String) (ts : List Token) : Decidable (Begins ws ts) :=
  inferInstanceAs (Decidable (ws.map word <+: solids ts))

/-- Trivia that a parse keeps in front of a token. -/
def Dialect.Keeps (d : Dialect) (items : List Trivia) : Prop :=
  if d.keepTrivia then Trivia.IsRun items ∧ Trivia.Closed items else items = []

/-- The words of which primitive types are made. No other type goes by one of them. -/
def Primitive.keywords : List String :=
  ["unsigned", "short", "long", "unrestricted", "float", "double", "boolean", "byte", "octet"]

structure IsTypeName (s : String) : Prop extends IsName s where
  not_keyword : s ∉ Primitive.keywords

inductive IdlType.WellFormed : IdlType → Prop
  | primitive (p : Primitive) (s : Suffix) : WellFormed (.primitive p s)
  | named {name : String} {s : Suffix} (hname : IsTypeName name)
      (hany : ¬(name = "any" ∧ s.nullable ∧ s.array = [])) : WellFormed (.named name s)
  | generic {name : String} {inner : IdlType} (s : Suffix) (hname : IsTypeName name)
      (hinner : WellFormed inner) : WellFormed (.generic name inner s)
  | union {members : List IdlType} (s : Suffix) (hmembers : ∀ t ∈ members, WellFormed t)
      (htwo : 2 ≤ members.length) : WellFormed (.union members s)

/-- The name behind the type is not read as a part of it. -/
def IdlType.Apart (t : IdlType) (name : String) : Prop :=
  ∀ unsigned, t = .primitive (.integer unsigned .long) {} → name ≠ "long"

def Literal.WellFormed : Literal → Prop
  | .number s => Numeral.IsFloat s.toList ∨ Numeral.IsInteger s.toList
  | .string s => '"' ∉ s.toList
  | _ => True

/-- What a constant may be: no string and no sequence. -/
def Literal.IsConst : Literal → Prop
  | .string _ | .emptySequence => False
  | _ => True

def AttributeValue.WellFormed : AttributeValue → Prop
  | .absent => True
  | .identifier name => IsName name
  | .identifierList names => ∀ n ∈ names, IsName n

mutual

inductive ExtendedAttribute.WellFormed (d : Dialect) : ExtendedAttribute → Prop
  | intro {e : ExtendedAttribute} (hname : IsName e.name) (hvalue : e.value.WellFormed)
      (hparameters : e.parameters.WellFormed d) : e.WellFormed d

inductive AttributeParameters.WellFormed (d : Dialect) : AttributeParameters → Prop
  | absent : AttributeParameters.WellFormed d .absent
  | arguments {args : List Argument} (h : ∀ a ∈ args, a.WellFormed d) :
      AttributeParameters.WellFormed d (.arguments args)
  | typePair {key value : IdlType} (hkey : key.WellFormed) (hvalue : value.WellFormed) :
      AttributeParameters.WellFormed d (.typePair key value)

inductive Argument.WellFormed (d : Dialect) : Argument → Prop
  | intro {a : Argument} (hattributes : ∀ e ∈ a.extAttrs, e.WellFormed d)
      (hafter : d.Keeps a.afterAttrs) (hbare : a.extAttrs = [] → a.afterAttrs = [])
      (hleading : d.Keeps a.leading) (htrailing : d.Keeps a.trailing)
      (htype : a.type.WellFormed) (hname : IsName a.name)
      (happart : a.variadic = false → a.type.Apart a.name)
      (hdefault : ∀ l ∈ a.default, l.WellFormed)
      (hrequired : a.optional = false →
        a.default = none ∧ ¬Begins ["optional"] (ofType a.type))
      (hoptional : a.optional → a.variadic = false ∧ (a.default = none → a.trailing = [])) :
      a.WellFormed d

end

/-- Extended attributes with the trivia behind them. -/
structure Annotated (d : Dialect) (es : List ExtendedAttribute) (items : List Trivia) :
    Prop where
  attributes : ∀ e ∈ es, e.WellFormed d
  after : d.Keeps items
  bare : es = [] → items = []

structure Typedef.WellFormed (d : Dialect) (t : Typedef) : Prop where
  annotated : Annotated d t.typeExtAttrs t.afterTypeAttrs
  type : t.type.WellFormed
  name : IsName t.name
  apart : t.type.Apart t.name

/-- The type of a constant: no arrays, no generic types and no unions, but `any?` may stand. -/
inductive IdlType.IsConst : IdlType → Prop
  | primitive (p : Primitive) (nullable : Bool) : IsConst (.primitive p ⟨nullable, []⟩)
  | named {name : String} (nullable : Bool) (hname : IsTypeName name) :
      IsConst (.named name ⟨nullable, []⟩)

structure Const.WellFormed (c : Const) : Prop where
  type : c.type.IsConst
  name : IsName c.name
  apart : c.type.Apart c.name
  value : c.value.WellFormed
  isConst : c.value.IsConst

structure Field.WellFormed (f : Field) : Prop where
  type : f.type.WellFormed
  name : IsName f.name
  apart : f.type.Apart f.name
  default : ∀ l ∈ f.default, l.WellFormed
  required : f.required → f.default = none
  optional : f.required = false → ¬Begins ["required"] (ofType f.type)

/-- What an exception may hold of a field: a type and a name. -/
structure Field.IsPlain (f : Field) : Prop where
  type : f.type.WellFormed
  name : IsName f.name
  apart : f.type.Apart f.name
  optional : f.required = false
  noDefault : f.default = none
  noConst : ¬Begins ["const"] (ofType f.type)

structure Attribute.WellFormed (a : Attribute) : Prop where
  type : a.type.WellFormed
  noSequence : a.type.isSequence = false
  name : IsName a.name
  apart : a.type.Apart a.name
  isStatic : a.isStatic → a.stringifier = false
  inherits : a.inherits → a.isStatic = false ∧ a.stringifier = false

/-- A return type, a name or none, and arguments. -/
structure Signature (d : Dialect) (t : IdlType) (o : Option String) (as : List Argument) :
    Prop where
  type : t.WellFormed
  name : ∀ n ∈ o, IsName n ∧ t.Apart n
  arguments : ∀ a ∈ as, a.WellFormed d

/-- What an operation is written with in front of its arguments. -/
def Spelling.opening (type : IdlType) (name : Option String) : List Token :=
  ofType type ++ name.toList.flatMap fun n => [space, word n]

/-- First words that turn what stands behind `static` or `stringifier` into an attribute. -/
def attributeStarts : List (List String) :=
  [["attribute"], ["readonly", "attribute"], ["inherit"]]

/-- First words of an attribute. -/
def attributeMemberStarts : List (List String) :=
  [["attribute"], ["readonly", "attribute"], ["inherit", "attribute"],
    ["inherit", "readonly", "attribute"]] ++
    attributeStarts.map ("static" :: ·) ++ attributeStarts.map ("stringifier" :: ·)

def iterableStarts : List (List String) :=
  [["iterable"], ["legacyiterable"], ["maplike"], ["setlike"], ["readonly", "maplike"],
    ["readonly", "setlike"]]

/-- First words of the members that are tried before operations. -/
def declarationStarts (d : Dialect) : List (List String) :=
  (if d.allowNestedTypedefs then [["typedef"]] else []) ++ [["const"], ["serializer"]] ++
    iterableStarts ++ attributeMemberStarts

/-- First words with which an interface member is something else than a plain operation. -/
def memberStarts (d : Dialect) : List (List String) :=
  declarationStarts d ++ [["static"], ["stringifier"]] ++ Special.all.map fun s => [s.keyword]

inductive Operation.WellFormed (d : Dialect) : Operation → Prop
  | bare : WellFormed d ⟨{}, false, true, none, none, []⟩
  | marked {marks : Specials} {type : IdlType} {name : Option String} {args : List Argument}
      (hmarks : marks.isEmpty = false) (h : Signature d type name args)
      (hstart : ∀ s : Special, ¬Begins [s.keyword] (ofType type)) :
      WellFormed d ⟨marks, false, false, some type, name, args⟩
  | static {type : IdlType} {name : Option String} {args : List Argument}
      (h : Signature d type name args)
      (hstart : ∀ ws ∈ attributeStarts, ¬Begins ws (opening type name)) :
      WellFormed d ⟨{}, true, false, some type, name, args⟩
  | stringifier {type : IdlType} {name : Option String} {args : List Argument}
      (h : Signature d type name args)
      (hstart : ∀ ws ∈ attributeStarts, ¬Begins ws (opening type name)) :
      WellFormed d ⟨{}, false, true, some type, name, args⟩
  | plain {type : IdlType} {name : Option String} {args : List Argument}
      (h : Signature d type name args)
      (hstart : ∀ ws ∈ memberStarts d, ¬Begins ws (opening type name))
      (hname : name ≠ some "iterator") :
      WellFormed d ⟨{}, false, false, some type, name, args⟩

structure IteratorMember.WellFormed (d : Dialect) (i : IteratorMember) : Prop where
  type : i.returnType.WellFormed
  object : ∀ n, i.object = .named n → IsName n
  start : ∀ ws ∈ memberStarts d, ¬Begins ws (opening i.returnType (some "iterator"))

/-- The names of a serializer pattern, some of which stand alone. -/
structure PatternNames (single ns : List String) : Prop where
  names : ∀ n ∈ ns, IsName n
  alone : ∀ n ∈ ns.head?, n ∈ single → ns = [n]

def Serializer.WellFormed (d : Dialect) : Serializer → Prop
  | .bare => True
  | .named name => IsName name
  | .patternMap names => PatternNames ["getter"] names
  | .patternList names => PatternNames ["getter", "inherit"] names
  | .operation type name args => Signature d type name args

structure Iterable.WellFormed (i : Iterable) : Prop where
  types : ∀ t ∈ i.types, t.WellFormed
  one_or_two : (i.types.length = 1 ∧ i.kind.requiresSecond = false) ∨
    (i.types.length = 2 ∧ i.kind.allowsSecond)
  readonly : i.readonly → i.kind = .maplike ∨ i.kind = .setlike

namespace MemberKind

def InInterface (d : Dialect) : MemberKind → Prop
  | .const c => c.WellFormed
  | .field _ => False
  | .attribute a => a.WellFormed
  | .operation o => o.WellFormed d
  | .iterator i => i.WellFormed d
  | .serializer s => s.WellFormed d
  | .iterable i => i.WellFormed
  | .typedef t => d.allowNestedTypedefs ∧ t.WellFormed d

def InDictionary : MemberKind → Prop
  | .field f => f.WellFormed
  | _ => False

def InException : MemberKind → Prop
  | .const c => c.WellFormed
  | .field f => f.IsPlain
  | _ => False

end MemberKind

structure Member.WellFormed (d : Dialect) (P : MemberKind → Prop) (m : Member) : Prop where
  annotated : Annotated d m.extAttrs m.afterAttrs
  leading : d.Keeps m.leading
  kind : P m.kind

/-- A body with members of the kinds that fit it. -/
structure Body (d : Dialect) (P : MemberKind → Prop) (ms : List Member) (items : List Trivia) :
    Prop where
  members : ∀ m ∈ ms, m.WellFormed d P
  closing : d.Keeps items

/-- The name and the base of a definition. A partial definition names no base. -/
structure Headed (n : String) (isPartial : Bool) (inheritance : Option String) : Prop where
  name : IsName n
  base : ∀ b ∈ inheritance, IsName b
  baseless : isPartial → inheritance = none

structure Interface.WellFormed (d : Dialect) (i : Interface) : Prop where
  headed : Headed i.name i.isPartial i.inheritance
  body : Body d (MemberKind.InInterface d) i.members i.closing

structure Dictionary.WellFormed (d : Dialect) (b : Dictionary) : Prop where
  headed : Headed b.name b.isPartial b.inheritance
  body : Body d MemberKind.InDictionary b.members b.closing

structure Exception.WellFormed (d : Dialect) (e : Exception) : Prop where
  headed : Headed e.name false e.inheritance
  body : Body d MemberKind.InException e.members e.closing

structure Callback.WellFormed (d : Dialect) (c : Callback) : Prop where
  name : IsName c.name
  notInterface : c.name ≠ "interface"
  notClass : d.allowClass → c.name ≠ "class"
  signature : Signature d c.returnType none c.arguments

structure EnumValue.WellFormed (d : Dialect) (v : EnumValue) : Prop where
  value : '"' ∉ v.value.toList
  leading : d.Keeps v.leading
  trailing : d.Keeps v.trailing

structure Enum.WellFormed (d : Dialect) (e : Enum) : Prop where
  name : IsName e.name
  values : ∀ v ∈ e.values, v.WellFormed d
  closing : d.Keeps e.closing
  noValues : e.values = [] → e.trailingComma = false
  noComma : e.values ≠ [] → e.trailingComma = false → e.closing = []

/-- First words with which a definition is no `implements` statement. -/
def definitionStarts (d : Dialect) : List String :=
  (if d.allowClass then ["class"] else []) ++
    ["callback", "interface", "partial", "dictionary", "exception", "enum", "typedef"]

structure Implements.WellFormed (d : Dialect) (i : Implements) : Prop where
  target : IsName i.target
  mixin : IsName i.mixin
  start : i.target ∉ definitionStarts d

def DefinitionKind.WellFormed (d : Dialect) : DefinitionKind → Prop
  | .interface i => i.WellFormed d
  | .class i => d.allowClass ∧ i.WellFormed d
  | .callback c => c.WellFormed d
  | .callbackInterface i => i.isPartial = false ∧ i.WellFormed d
  | .dictionary b => b.WellFormed d
  | .exception e => e.WellFormed d
  | .enum e => e.WellFormed d
  | .typedef t => t.WellFormed d
  | .implements i => i.WellFormed d

structure Definition.WellFormed (d : Dialect) (x : Definition) : Prop where
  annotated : Annotated d x.extAttrs x.afterAttrs
  leading : d.Keeps x.leading
  kind : x.kind.WellFormed d

/-- At the end of a program a line comment may stay open. -/
structure Program.WellFormed (d : Dialect) (p : Program) : Prop where
  definitions : ∀ x ∈ p.definitions, x.WellFormed d
  trailing : if d.keepTrivia then Trivia.IsRun p.trailing else p.trailing = []

theorem Dialect.Keeps.isRun {d : Dialect} {items : List Trivia} (h : d.Keeps items)
    (hd : d.keepTrivia) : Trivia.IsRun items := by
  rw [Dialect.Keeps, if_pos hd] at h
  exact h.1

theorem Dialect.Keeps.settled {d : Dialect} {items : List Trivia} (h : d.Keeps items) :
    Trivia.IsRun items ∧ Trivia.Closed items := by
  rw [Dialect.Keeps] at h
  split at h
  · exact h
  · exact h ▸ ⟨.nil, trivial⟩

theorem Argument.WellFormed.keeps_leading {d : Dialect} {a : Argument} (h : a.WellFormed d) :
    d.Keeps a.leading := by
  obtain ⟨-, -, -, hleading, -⟩ := h
  exact hleading

theorem IsName.unescape_word {s : String} (h : IsName s) : (word s).unescape = word s := by
  unfold unescape
  split
  · next rest _ heq =>
    exact absurd (by rw [show s.toList = '_' :: rest from heq]; rfl) h.unescaped
  · rfl

theorem Token.Begins.append {ws : List String} {ts : List Token} (h : Begins ws ts)
    (us : List Token) : Begins ws (ts ++ us) := by
  unfold Begins
  rw [solids_append]
  exact h.trans (List.prefix_append _ _)

theorem Token.begins_singleton {w : String} {ts : List Token} :
    Begins [w] ts ↔ (core ts).head? = some (word w) := by
  rw [head?_core]
  unfold Begins
  cases solids ts with
  | nil => simp
  | cons t us => simp [List.cons_prefix_cons, eq_comm]

end WebIdl
