import WebIdl.Text.Character

/-!
# Numerals

How far a numeral reaches from the start of a text. A float is
`-?(([0-9]+\.[0-9]*|[0-9]*\.[0-9]+)([Ee][-+]?[0-9]+)?|[0-9]+[Ee][-+]?[0-9]+)` and an integer is
`-?(0([Xx][0-9A-Fa-f]+|[0-7]*)|[1-9][0-9]*)`; each length is that of the longest numeral, and
zero where none stands.
-/

namespace WebIdl.Numeral

open Text

/-- The number of leading characters in a class. -/
def run (p : Char → Bool) (cs : List Char) : Nat :=
  (cs.takeWhile p).length

def minusLength : List Char → Nat
  | '-' :: _ => 1
  | _ => 0

def signLength : List Char → Nat
  | '-' :: _ => 1
  | '+' :: _ => 1
  | _ => 0

/-- An `e`, an optional sign and at least one digit. -/
def exponentLength : List Char → Nat
  | [] => 0
  | e :: rest =>
    if e = 'e' ∨ e = 'E' then
      let sign := signLength rest
      let digits := run Char.isDigit (rest.drop sign)
      if digits = 0 then 0 else 1 + sign + digits
    else 0

/-- A decimal part without its sign: digits with a point, or digits with an exponent. -/
def decimalLength (cs : List Char) : Nat :=
  let whole := run Char.isDigit cs
  match cs.drop whole with
  | '.' :: rest =>
    let fraction := run Char.isDigit rest
    if whole = 0 ∧ fraction = 0 then 0
    else whole + 1 + fraction + exponentLength (rest.drop fraction)
  | rest =>
    let exponent := exponentLength rest
    if whole = 0 ∨ exponent = 0 then 0 else whole + exponent

def floatLength (cs : List Char) : Nat :=
  let sign := minusLength cs
  let body := decimalLength (cs.drop sign)
  if body = 0 then 0 else sign + body

/-- A whole number without its sign: hexadecimal, octal or decimal. -/
def wholeLength : List Char → Nat
  | '0' :: rest =>
    match rest with
    | x :: digits =>
      let hex := run isHexDigit digits
      if (x = 'x' ∨ x = 'X') ∧ hex ≠ 0 then 2 + hex else 1 + run isOctalDigit rest
    | [] => 1
  | cs@(d :: _) => if d.isDigit then run Char.isDigit cs else 0
  | [] => 0

def integerLength (cs : List Char) : Nat :=
  let sign := minusLength cs
  let body := wholeLength (cs.drop sign)
  if body = 0 then 0 else sign + body

end WebIdl.Numeral
