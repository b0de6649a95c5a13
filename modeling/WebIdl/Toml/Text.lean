import WebIdl.Text.Character
import WebIdl.Toml.Scan

/-!
# TOML strings

The four kinds of strings, and the keys that may be written as strings of one line.
-/

namespace WebIdl.Toml

open Scan

/-- The value of a text of digits in some base. -/
def digitsValue (base : Nat) (digits : List Char) : Nat :=
  let value (c : Char) : Nat :=
    if c.isDigit then c.toNat - '0'.toNat
    else if c.isUpper then c.toNat - 'A'.toNat + 10
    else c.toNat - 'a'.toNat + 10
  digits.foldl (fun n c => base * n + value c) 0

/-- A character given by its number, which has to be a Unicode scalar value. -/
def scalarValue (digits : Nat) : Scan Char := do
  let n := digitsValue 16 (← exactly digits Text.isHexDigit)
  if n.isValidChar then return Char.ofNat n else failure

/-- What follows a backslash. -/
def escaped : Scan Char := do
  let c ← peek?
  modify (·.drop 1)
  match c with
  | some 'b' => return '\x08'
  | some 't' => return '\t'
  | some 'n' => return '\n'
  | some 'f' => return '\x0c'
  | some 'r' => return '\r'
  | some '"' => return '"'
  | some '\\' => return '\\'
  | some 'u' => scalarValue 4
  | some 'U' => scalarValue 8
  | _ => failure

/-- The next piece of a string on one line: an escape, or a character as it is. -/
def basicPiece : Scan (Option (List Char)) := do
  match ← peek? with
  | none | some '"' => return none
  | some '\\' =>
    modify (·.drop 1)
    return some [← escaped]
  | some c =>
    if isVisible c then
      modify (·.drop 1)
      return some [c]
    else
      failure

/-- `"…"` from behind the opening quote. -/
def basicString : Scan String := do
  let pieces ← repeated basicPiece
  require "\""
  return String.ofList pieces.flatten

/-- `'…'` from behind the opening quote. -/
def literalString : Scan String := do
  let body ← takeWhile fun c => isVisible c && c != '\x27'
  require "'"
  return String.ofList body

/-- A line break behind a backslash, with all blanks and line breaks that follow it. -/
def joinedLines : Scan Bool := do
  let joined ← maybe do
    blanks
    if ← newline then return () else failure
  if joined.isSome then
    let _ ← repeated do
      blanks
      if ← newline then return some () else return none
    return true
  else
    return false

/-- One or two quotes are part of a string over several lines. Three end it. -/
def innerQuotes (mark : Char) : Scan (Option (List Char)) := do
  let quotes := (← get).takeWhile (· == mark)
  if quotes.length < 3 then
    modify (·.drop quotes.length)
    return some quotes
  else
    return none

/-- A line break inside a string over several lines, or another character as it is. -/
def plainPiece (c : Char) : Scan (Option (List Char)) := do
  if ← newline then
    return some ['\n']
  else if isVisible c then
    modify (·.drop 1)
    return some [c]
  else
    failure

def longBasicPiece : Scan (Option (List Char)) := do
  match ← peek? with
  | none => return none
  | some '"' => innerQuotes '"'
  | some '\\' =>
    modify (·.drop 1)
    if ← joinedLines then return some [] else return some [← escaped]
  | some c => plainPiece c

def longLiteralPiece : Scan (Option (List Char)) := do
  match ← peek? with
  | none => return none
  | some '\x27' => innerQuotes '\x27'
  | some c => plainPiece c

/-- A string over several lines from behind its opening quotes. A line break right there is left
out, and up to two quotes may stand in front of the closing ones. -/
def longString (mark : Char) (piece : Scan (Option (List Char))) : Scan String := do
  let _ ← newline
  let pieces ← repeated piece
  let quotes := ((← get).takeWhile (· == mark)).length
  if quotes < 3 then
    failure
  else
    let inner := min (quotes - 3) 2
    modify (·.drop (inner + 3))
    return String.ofList (pieces.flatten ++ List.replicate inner mark)

def isBareKeyPart (c : Char) : Bool :=
  c.isAlphanum || c == '_' || c == '-'

def simpleKey : Scan String := do
  if ← taken "\"" then
    basicString
  else if ← taken "'" then
    literalString
  else
    let name ← takeWhile isBareKeyPart
    if name.isEmpty then failure else return String.ofList name

/-- A key may not have more parts than this. -/
def maxKeyParts : Nat := 79

/-- `a . b . c`: the parts in front of the last, and the last. -/
def dottedKey : Scan (List String × String) := do
  let part : Scan String := do
    blanks
    let key ← simpleKey
    blanks
    return key
  let parts ← separated (taken ".") part
  match parts.reverse with
  | last :: earlier =>
    if parts.length ≤ maxKeyParts then return (earlier.reverse, last) else failure
  | [] => failure

end WebIdl.Toml
