import WebIdl.Text.Character

/-!
# What stands at the top level

A scan of written text that tells which characters are exposed: outside strings, comments and
brackets of any kind. A bracket that opens at the top level is exposed itself, one that closes
never is. Text is cut at exposed characters alone.
-/

namespace WebIdl.Layout

/-- What the scan is inside of, and how many brackets are open there. -/
inductive Mode where
  | code (depth : Nat)
  | string (depth : Nat)
  | lineComment (depth : Nat)
  | blockComment (depth : Nat)
deriving DecidableEq, Repr

def isOpening (c : Char) : Bool :=
  c == '(' || c == '[' || c == '\x7b'

def isClosing (c : Char) : Bool :=
  c == ')' || c == ']' || c == '\x7d'

/-- The bracket depth behind a character of the code. -/
def depthAfter (depth : Nat) (c : Char) : Nat :=
  if isOpening c then depth + 1 else if isClosing c then depth - 1 else depth

/-- Each character with whether it is exposed. A line comment ends in front of its line feed. -/
def expose : Mode → List Char → List (Char × Bool)
  | _, [] => []
  | .string depth, c :: rest =>
    (c, false) :: expose (if c = '"' then .code depth else .string depth) rest
  | .lineComment depth, c :: rest =>
    if c = '\n' then (c, depth == 0) :: expose (.code depth) rest
    else (c, false) :: expose (.lineComment depth) rest
  | .blockComment depth, '*' :: '/' :: rest =>
    ('*', false) :: ('/', false) :: expose (.code depth) rest
  | .blockComment depth, c :: rest => (c, false) :: expose (.blockComment depth) rest
  | .code depth, '/' :: '/' :: rest =>
    ('/', false) :: ('/', false) :: expose (.lineComment depth) rest
  | .code depth, '/' :: '*' :: rest =>
    ('/', false) :: ('*', false) :: expose (.blockComment depth) rest
  | .code depth, c :: rest =>
    if c = '"' then (c, false) :: expose (.string depth) rest
    else (c, depth == 0 && !isClosing c) :: expose (.code (depthAfter depth c)) rest

def exposure (cs : List Char) : List (Char × Bool) :=
  expose (.code 0) cs

/-- The pieces that end at an exposed separator, without it, and what follows the last one. -/
def splitMarked (separator : Char) : List (Char × Bool) → List (List Char) × List Char
  | [] => ([], [])
  | (c, exposed) :: rest =>
    match splitMarked separator rest with
    | (pieces, last) =>
      if exposed && c == separator then ([] :: pieces, last)
      else
        match pieces with
        | [] => ([], c :: last)
        | piece :: more => ((c :: piece) :: more, last)

def split (separator : Char) (cs : List Char) : List (List Char) × List Char :=
  splitMarked separator (exposure cs)

/-- The text in front of the first exposed character of its kind and the text behind it. -/
def cutAt? (wanted : Char) (cs : List Char) : Option (List Char × List Char) :=
  match (exposure cs).span fun (c, exposed) => !(exposed && c == wanted) with
  | (_, []) => none
  | (front, _ :: back) => some (front.map Prod.fst, back.map Prod.fst)

/-- The byte offsets of the exposed characters of a kind. -/
def offsetsFrom (wanted : Char → Bool) (offset : Nat) : List (Char × Bool) → List Nat
  | [] => []
  | (c, exposed) :: rest =>
    let others := offsetsFrom wanted (offset + c.utf8Size) rest
    if exposed && wanted c then offset :: others else others

/-- Where the exposed characters of a kind stand in a text, in bytes. -/
def topLevelOffsets (wanted : Char → Bool) (text : String) : List Nat :=
  offsetsFrom wanted 0 (exposure text.toList)

end WebIdl.Layout
