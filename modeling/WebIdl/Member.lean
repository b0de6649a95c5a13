import WebIdl.Attribute
import WebIdl.IterableKind

/-!
# Members

What stands in the body of an interface, a dictionary or an exception.
-/

namespace WebIdl

/-- `typedef [TypeAttrs] T Name;`, at the top level or inside an interface. -/
structure Typedef where
  typeExtAttrs : List ExtendedAttribute
  afterTypeAttrs : List Trivia
  type : IdlType
  name : String

/-- `const T name = value;` -/
structure Const where
  type : IdlType
  name : String
  value : Literal

/-- `required T name = default;` -/
structure Field where
  required : Bool
  type : IdlType
  name : String
  default : Option Literal

/-- `static stringifier inherit readonly attribute T name;` -/
structure Attribute where
  isStatic : Bool
  stringifier : Bool
  inherits : Bool
  readonly : Bool
  type : IdlType
  name : String

inductive Special where
  | getter
  | setter
  | creator
  | deleter
  | legacyCaller
deriving DecidableEq, Repr

namespace Special

/-- The order in which special keywords are written. -/
def all : List Special :=
  [getter, setter, creator, deleter, legacyCaller]

def keyword : Special → String
  | getter => "getter"
  | setter => "setter"
  | creator => "creator"
  | deleter => "deleter"
  | legacyCaller => "legacycaller"

end Special

/-- The special keywords in front of an operation, as a set. -/
structure Specials where
  getter : Bool := false
  setter : Bool := false
  creator : Bool := false
  deleter : Bool := false
  legacyCaller : Bool := false
deriving DecidableEq, Repr

namespace Specials

def contains (s : Specials) : Special → Bool
  | .getter => s.getter
  | .setter => s.setter
  | .creator => s.creator
  | .deleter => s.deleter
  | .legacyCaller => s.legacyCaller

def insert (s : Specials) : Special → Specials
  | .getter => { s with getter := true }
  | .setter => { s with setter := true }
  | .creator => { s with creator := true }
  | .deleter => { s with deleter := true }
  | .legacyCaller => { s with legacyCaller := true }

def toList (s : Specials) : List Special :=
  Special.all.filter s.contains

def isEmpty (s : Specials) : Bool :=
  s.toList.isEmpty

end Specials

/-- An operation; only the bare `stringifier;` has no return type. -/
structure Operation where
  specials : Specials
  isStatic : Bool
  stringifier : Bool
  returnType : Option IdlType
  name : Option String
  arguments : List Argument

inductive IteratorObject where
  | absent
  | object
  | named (name : String)
deriving DecidableEq, Repr

/-- `T iterator;`, `T iterator object;`, `T iterator = Name;` -/
structure IteratorMember where
  returnType : IdlType
  object : IteratorObject

inductive Serializer where
  /-- `serializer;` -/
  | bare
  /-- `serializer = name;` -/
  | named (name : String)
  /-- `serializer = { … };` -/
  | patternMap (names : List String)
  /-- `serializer = [ … ];` -/
  | patternList (names : List String)
  /-- `serializer T name(args);` -/
  | operation (returnType : IdlType) (name : Option String) (arguments : List Argument)

/-- `iterable<V>;`, `maplike<K, V>;`, `readonly setlike<V>;` -/
structure Iterable where
  kind : IterableKind
  readonly : Bool
  types : List IdlType

inductive MemberKind where
  | const (c : Const)
  | field (f : Field)
  | attribute (a : Attribute)
  | operation (o : Operation)
  | iterator (i : IteratorMember)
  | serializer (s : Serializer)
  | iterable (i : Iterable)
  | typedef (t : Typedef)

structure Member where
  extAttrs : List ExtendedAttribute
  /-- In front of the member and its extended attributes. -/
  leading : List Trivia
  /-- Behind the extended attributes. -/
  afterAttrs : List Trivia
  kind : MemberKind

/-- The declared name, of a member that has one. -/
def Member.name? (m : Member) : Option String :=
  match m.kind with
  | .const c => some c.name
  | .field f => some f.name
  | .attribute a => some a.name
  | .operation o => o.name
  | .typedef t => some t.name
  | .iterator _ | .serializer _ | .iterable _ => none

end WebIdl
