import WebIdl.Member

/-!
# Definitions and programs
-/

namespace WebIdl

/-- The body shared by interfaces, classes and callback interfaces. -/
structure Interface where
  name : String
  isPartial : Bool
  inheritance : Option String
  members : List Member
  /-- In front of the closing brace. -/
  closing : List Trivia

structure Dictionary where
  name : String
  isPartial : Bool
  inheritance : Option String
  members : List Member
  closing : List Trivia

structure Exception where
  name : String
  inheritance : Option String
  members : List Member
  closing : List Trivia

/-- `callback Name = T (args);` -/
structure Callback where
  name : String
  returnType : IdlType
  arguments : List Argument

structure EnumValue where
  value : String
  leading : List Trivia
  /-- In front of the comma. -/
  trailing : List Trivia

structure Enum where
  name : String
  values : List EnumValue
  /-- A comma stands behind the last value. -/
  trailingComma : Bool
  closing : List Trivia

/-- `Target implements Mixin;` -/
structure Implements where
  target : String
  mixin : String

inductive DefinitionKind where
  | interface (body : Interface)
  | class (body : Interface)
  | callback (callback : Callback)
  | callbackInterface (body : Interface)
  | dictionary (body : Dictionary)
  | exception (body : Exception)
  | enum (body : Enum)
  | typedef (typedef : Typedef)
  | implements (statement : Implements)

structure Definition where
  extAttrs : List ExtendedAttribute
  /-- In front of the definition and its extended attributes. -/
  leading : List Trivia
  /-- Behind the extended attributes. -/
  afterAttrs : List Trivia
  kind : DefinitionKind

/-- Definitions in source order, partial ones on their own. -/
structure Program where
  definitions : List Definition
  /-- Behind the last definition. -/
  trailing : List Trivia

namespace Definition

/-- The name that partial definitions are matched by. An `implements` statement goes by its
target. -/
def name (d : Definition) : String :=
  match d.kind with
  | .interface i | .class i | .callbackInterface i => i.name
  | .callback c => c.name
  | .dictionary b => b.name
  | .exception e => e.name
  | .enum e => e.name
  | .typedef t => t.name
  | .implements i => i.target

def isPartial (d : Definition) : Bool :=
  match d.kind with
  | .interface i | .class i => i.isPartial
  | .dictionary b => b.isPartial
  | _ => false

def inheritance? (d : Definition) : Option String :=
  match d.kind with
  | .interface i | .class i | .callbackInterface i => i.inheritance
  | .dictionary b => b.inheritance
  | .exception e => e.inheritance
  | _ => none

/-- The members, of a definition that has a member list. -/
def members? (d : Definition) : Option (List Member) :=
  match d.kind with
  | .interface i | .class i | .callbackInterface i => some i.members
  | .dictionary b => some b.members
  | .exception e => some e.members
  | _ => none

/-- The definition with more members behind its own. One without a member list stays as it
is. -/
def addMembers (d : Definition) (more : List Member) : Definition :=
  let body (i : Interface) : Interface := { i with members := i.members ++ more }
  { d with
    kind := match d.kind with
      | .interface i => .interface (body i)
      | .class i => .class (body i)
      | .callbackInterface i => .callbackInterface (body i)
      | .dictionary b => .dictionary { b with members := b.members ++ more }
      | .exception e => .exception { e with members := e.members ++ more }
      | kind => kind }

/-- The leading keywords as they are written. -/
def keyword (d : Definition) : String :=
  match d.kind with
  | .interface _ => "interface"
  | .class _ => "class"
  | .callback _ => "callback"
  | .callbackInterface _ => "callback interface"
  | .dictionary _ => "dictionary"
  | .exception _ => "exception"
  | .enum _ => "enum"
  | .typedef _ => "typedef"
  | .implements _ => "implements"

end Definition

end WebIdl
