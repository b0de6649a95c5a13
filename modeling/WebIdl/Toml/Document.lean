import WebIdl.Toml.Number
import WebIdl.Toml.Table

/-!
# TOML documents

Values, key–value lines, table headers and whole documents. `Document.ofText?` answers the root
table of a well-formed document.
-/

namespace WebIdl.Toml

open Scan

/-- Arrays and inline tables nest no deeper than this. -/
def maxDepth : Nat := 79

/-- The line `path.key = value`. -/
structure Assignment where
  path : List String
  key : String
  value : Value

/-- A quote begins a string; three of them begin one over several lines. -/
def stringValue : Scan String := do
  if ← taken "\"\"\"" then longString '"' longBasicPiece
  else if ← taken "\"" then basicString
  else if ← taken "'''" then longString '\x27' longLiteralPiece
  else
    require "'"
    literalString

/-- Dates come first, since a year reads like a number, and floats before integers. -/
def numericValue : Scan Value :=
  either (do dateTime; return .dateTime)
    (either (do decimalFloat; return .number)
      (either (do integer; return .number) (do specialFloat; return .number)))

def booleanValue : Scan Value := do
  if ← taken "true" then return .boolean true
  else
    require "false"
    return .boolean false

/-- The items of an array, from behind its bracket, and the closing bracket. -/
def arrayRest (item : Scan Value) : Scan Unit := do
  let _ ← repeated do
    gap
    match ← peek? with
    | none | some ']' => return none
    | some _ =>
      let _ ← item
      gap
      match ← peek? with
      | some ',' =>
        modify (·.drop 1)
        return some ()
      | some ']' => return some ()
      | _ => failure
  require "]"

def assignment (value : Scan Value) : Scan Assignment := do
  let (path, key) ← dottedKey
  require "="
  blanks
  return { path, key, value := ← value }

/-- The table that assignments build, if they are consistent. -/
def assignAll (t : Table) (assignments : List Assignment) : Option Table :=
  assignments.foldlM (fun t a => t.insertDotted a.path a.key a.value) t

/-- An inline table from behind its brace. It stands on one line and ends without a comma. -/
def inlineTableRest (value : Scan Value) : Scan Unit := do
  blanks
  if ← taken "\x7d" then
    return ()
  else
    let item : Scan Assignment := do
      let a ← assignment value
      blanks
      return a
    let assignments ← separated (taken ",") item
    require "\x7d"
    if (assignAll (.empty .header) assignments).isNone then failure

/-- An array or an inline table over values of less depth. -/
def container (item : Scan Value) : Scan Value := do
  if ← taken "[" then
    arrayRest item
    return .array
  else
    require "\x7b"
    inlineTableRest item
    return .inlineTable

/-- A value, where containers are read as told. -/
def valueOver (nested : Scan Value) : Scan Value := do
  match ← peek? with
  | some '"' | some '\x27' => return .string (← stringValue)
  | some '[' | some '\x7b' => nested
  | some 't' | some 'f' => booleanValue
  | some _ => numericValue
  | none => failure

/-- A value in which containers nest no deeper than a bound. -/
def valueWithin : Nat → Scan Value
  | 0 => valueOver failure
  | depth + 1 => valueOver (container (valueWithin depth))

def value : Scan Value :=
  valueWithin maxDepth

/-- What a line adds to the document. -/
inductive Line where
  | empty
  | assignment (a : Assignment)
  | table (path : List String) (key : String)
  | arrayTable (path : List String) (key : String)

def header (closing : String) (make : List String → String → Line) : Scan Line := do
  let (path, key) ← dottedKey
  require closing
  return make path key

def line : Scan Line := do
  blanks
  match ← peek? with
  | none | some '#' | some '\n' | some '\r' => return .empty
  | some '[' =>
    if ← taken "[[" then header "]]" .arrayTable
    else
      require "["
      header "]" .table
  | some _ => return .assignment (← assignment value)

/-- The next line of a text that has not ended. -/
def nextLine : Scan (Option Line) := do
  if (← get).isEmpty then
    return none
  else
    let l ← line
    endOfLine
    return some l

/-- A document as far as it is read: its root, and the path of the table that is open. -/
structure Document where
  root : Table
  current : List String

namespace Document

def empty : Document :=
  ⟨.empty .header, []⟩

def add (doc : Document) : Line → Option Document
  | .empty => some doc
  | .assignment a => do
    let root ← doc.root.change .path (Table.insertDotted a.path a.key a.value) doc.current
    return { doc with root }
  | .table path key => do
    return ⟨← doc.root.openTable path key, path ++ [key]⟩
  | .arrayTable path key => do
    return ⟨← doc.root.openArrayTable path key, path ++ [key]⟩

/-- A text without the mark of its byte order. -/
def skipMark : List Char → List Char
  | '\ufeff' :: rest => rest
  | cs => cs

/-- The root table of a document. -/
def ofText? (text : String) : Option Table := do
  let (lines, _) ← (Scan.repeated nextLine).run (skipMark text.toList)
  let doc ← lines.foldlM add empty
  return doc.root

end Document

end WebIdl.Toml
