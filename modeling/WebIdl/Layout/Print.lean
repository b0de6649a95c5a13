import WebIdl.Layout.Entry

/-!
# Laying out written text

Statements are set apart by empty lines. A block has its entries on lines of their own, and the
names of one dictionary start in one column. Strings, comments and brackets are never broken.
-/

namespace WebIdl.Layout

open Text

/-- The depth of indentation that is used unless another is asked for. -/
def standardIndent : Nat := 4

/-- A member of a dictionary with its type filled up to the width of the column. -/
def fieldLine (width : Nat) (f : FieldText) : List Char :=
  (if f.type.isEmpty then f.name else padEnd width f.type ++ ' ' :: f.name) ++
    match f.default with
    | none => []
    | some value => ' ' :: '=' :: ' ' :: value

def typeWidth : Entry → Nat
  | .comment _ => 0
  | .declaration text => (FieldText.ofDeclaration text).type.length

/-- The width of the type column: that of the longest type. -/
def columnWidth (es : List Entry) : Nat :=
  (es.map typeWidth).foldl max 0

/-- The lines of a dictionary body. -/
def dictionaryLines (es : List Entry) : List (List Char) :=
  let width := columnWidth es
  es.map fun
    | .comment text => text
    | .declaration text => fieldLine width (FieldText.ofDeclaration text) ++ [';']

/-- The lines of an enum body. A comma follows every value but the last. -/
def enumLines : List Entry → List (List Char)
  | [] => []
  | .comment text :: rest => text :: enumLines rest
  | .declaration text :: rest =>
    (text ++ if rest.any Entry.isDeclaration then [','] else []) :: enumLines rest

/-- The lines of any other body. -/
def memberLines (es : List Entry) : List (List Char) :=
  es.map fun
    | .comment text => text
    | .declaration text => text ++ [';']

def bodyLines (keyword body : List Char) : List (List Char) :=
  if keyword = "dictionary".toList then dictionaryLines (entries ';' body)
  else if keyword = "enum".toList then enumLines (entries ',' body)
  else memberLines (entries ';' body)

/-- A line feed behind every line and blanks in front of it. -/
def indentLines (indent : Nat) (lines : List (List Char)) : List Char :=
  lines.flatMap fun line => List.replicate indent ' ' ++ line ++ ['\n']

/-- A statement as it is printed. One that holds nothing is left out. -/
def statement (indent : Nat) (text : List Char) : List Char :=
  match block? text with
  | some (header, body) =>
    header ++ " \x7b\n".toList ++ indentLines indent (bodyLines (definitionKeyword header) body) ++
      "\x7d;\n\n".toList
  | none =>
    let text := trim text
    if text.isEmpty then [] else text ++ ";\n\n".toList

/-- What follows the last statement. -/
def remainder (text : List Char) : List Char :=
  let text := trim text
  if text.isEmpty then [] else text ++ ['\n']

def printChars (indent : Nat) (cs : List Char) : List Char :=
  let (statements, rest) := split ';' cs
  statements.flatMap (statement indent) ++ remainder rest

def print (indent : Nat) (text : String) : String :=
  String.ofList (printChars indent text.toList)

end WebIdl.Layout
