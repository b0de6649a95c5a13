import WebIdl.Text.Quoted

/-!
# JSON values

Trees are shown as JSON. Objects keep the order in which their fields are given.
-/

namespace WebIdl

inductive Json where
  | null
  | bool (value : Bool)
  | string (value : String)
  | array (items : List Json)
  | object (fields : List (String × Json))
deriving Repr

namespace Json

/-- A field that is left out where its list is empty. -/
def fieldUnlessEmpty (name : String) (items : List Json) : List (String × Json) :=
  if items.isEmpty then [] else [(name, .array items)]

/-- A field that is left out where its value is absent. -/
def fieldIfPresent (name : String) (value : Option Json) : List (String × Json) :=
  value.toList.map (name, ·)

/-- A value that is null where it is absent. -/
def orNull (value : Option Json) : Json :=
  value.getD .null

/-- An object that names its variant under `type`. -/
def tagged (variant : String) (fields : List (String × Json)) : Json :=
  .object (("type", .string variant) :: fields)

/-- An object that holds a variant under `type` and its content under `value`. -/
def variant (name : String) (content : Json) : Json :=
  tagged name [("value", content)]

/-- A character inside a string. Only quotes, backslashes and the first control codes are
escaped. -/
def escapeChar (c : Char) : List Char :=
  if c = '"' ∨ c = '\\' then ['\\', c]
  else if c = '\n' then ['\\', 'n']
  else if c = '\r' then ['\\', 'r']
  else if c = '\t' then ['\\', 't']
  else if c = '\x08' then ['\\', 'b']
  else if c = '\x0c' then ['\\', 'f']
  else if c.toNat < 0x10 then ['\\', 'u', '0', '0', '0'] ++ Text.hexDigits c.toNat
  else if c.toNat < 0x20 then ['\\', 'u', '0', '0'] ++ Text.hexDigits c.toNat
  else [c]

def quoteString (s : String) : String :=
  String.ofList ('"' :: s.toList.flatMap escapeChar ++ ['"'])

def indentation (depth : Nat) : String :=
  String.ofList (List.replicate (2 * depth) ' ')

/-- Items on lines of their own between brackets. -/
def bracketed (opening closing : String) (depth : Nat) (items : List String) : String :=
  let line (item : String) := "\n" ++ indentation (depth + 1) ++ item
  opening ++ ",".intercalate (items.map line) ++ "\n" ++ indentation depth ++ closing

mutual

/-- The text of a value with two spaces for each level, as it stands at some depth. -/
def renderAt (depth : Nat) : Json → String
  | null => "null"
  | bool true => "true"
  | bool false => "false"
  | string s => quoteString s
  | array [] => "[]"
  | array (item :: items) => bracketed "[" "]" depth (renderItems (depth + 1) (item :: items))
  | object [] => "\x7b\x7d"
  | object (field :: fields) =>
    bracketed "\x7b" "\x7d" depth (renderFields (depth + 1) (field :: fields))

def renderItems (depth : Nat) : List Json → List String
  | [] => []
  | item :: items => renderAt depth item :: renderItems depth items

def renderFields (depth : Nat) : List (String × Json) → List String
  | [] => []
  | (name, value) :: fields =>
    (quoteString name ++ ": " ++ renderAt depth value) :: renderFields depth fields

end

/-- The indented text of a value. -/
def render (j : Json) : String :=
  j.renderAt 0

end Json

end WebIdl
