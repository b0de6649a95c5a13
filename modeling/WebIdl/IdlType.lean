/-!
# Types

A type is a primitive, a name, a generic type or a union, with suffixes behind it. The spelling
of a primitive is normalized, so a primitive is one of thirteen values.
-/

namespace WebIdl

inductive IntegerWidth where
  | short
  | long
  | longLong
deriving DecidableEq, Repr

inductive Primitive where
  | integer (unsigned : Bool) (width : IntegerWidth)
  | float (unrestricted : Bool)
  | double (unrestricted : Bool)
  | boolean
  | byte
  | octet
deriving DecidableEq, Repr

/-- The suffixes of a type. `array` has an entry for each `[]`, outermost last, which tells
whether the element type in front of it was nullable: `long?[]` has `[true]` and `long[]?[]` has
`[false, true]`. -/
structure Suffix where
  nullable : Bool := false
  array : List Bool := []
deriving DecidableEq, Repr

inductive IdlType where
  | primitive (name : Primitive) (suffix : Suffix)
  /-- Any other name, `any` and `void` among them. -/
  | named (name : String) (suffix : Suffix)
  | generic (name : String) (inner : IdlType) (suffix : Suffix)
  | union (members : List IdlType) (suffix : Suffix)
deriving Repr

def IntegerWidth.words : IntegerWidth → List String
  | short => ["short"]
  | long => ["long"]
  | longLong => ["long", "long"]

namespace Primitive

/-- The keywords of a primitive in order. -/
def words : Primitive → List String
  | integer unsigned width => (if unsigned then ["unsigned"] else []) ++ width.words
  | float unrestricted => (if unrestricted then ["unrestricted"] else []) ++ ["float"]
  | double unrestricted => (if unrestricted then ["unrestricted"] else []) ++ ["double"]
  | boolean => ["boolean"]
  | byte => ["byte"]
  | octet => ["octet"]

def spelling (p : Primitive) : String :=
  " ".intercalate p.words

end Primitive

namespace Suffix

/-- The type becomes nullable. -/
def makeNullable (s : Suffix) : Suffix :=
  ⟨true, s.array⟩

/-- The type becomes the element type of an array. -/
def makeArray (s : Suffix) : Suffix :=
  ⟨false, s.array ++ [s.nullable]⟩

end Suffix

namespace IdlType

def suffix : IdlType → Suffix
  | primitive _ s | named _ s | generic _ _ s | union _ s => s

def nullable (t : IdlType) : Bool :=
  t.suffix.nullable

def array (t : IdlType) : List Bool :=
  t.suffix.array

def arrayDepth (t : IdlType) : Nat :=
  t.array.length

def isUnion : IdlType → Bool
  | union .. => true
  | _ => false

/-- The name in front of the `<` of a generic type. -/
def genericName? : IdlType → Option String
  | generic name .. => some name
  | _ => none

def isSequence (t : IdlType) : Bool :=
  t.genericName? == some "sequence"

/-- The name of a primitive or named type. -/
def baseName? : IdlType → Option String
  | primitive p _ => some p.spelling
  | named name _ => some name
  | _ => none

end IdlType

end WebIdl
