/-!
# Scanning TOML text

A scan takes characters from the front of a text or fails for good. Repetitions are bounded by
the length of the text; each round takes a character, so the bound is never reached.
-/

namespace WebIdl.Toml

abbrev Scan := StateT (List Char) Option

namespace Scan

variable {α : Type}

def peek? : Scan (Option Char) := do
  return (← get).head?

/-- Takes the given text if it comes next. -/
def taken (text : String) : Scan Bool := do
  let cs ← get
  if text.toList.isPrefixOf cs then
    set (cs.drop text.length)
    return true
  else
    return false

def require (text : String) : Scan Unit := do
  if ← taken text then return () else failure

/-- Takes all characters of a class that come next. -/
def takeWhile (p : Char → Bool) : Scan (List Char) := do
  let cs ← get
  set (cs.dropWhile p)
  return cs.takeWhile p

/-- Takes exactly so many characters of a class. -/
def exactly (n : Nat) (p : Char → Bool) : Scan (List Char) := do
  let cs := (← get).take n
  if cs.length = n ∧ cs.all p then
    modify (·.drop n)
    return cs
  else
    failure

/-- The scan, or `none` with nothing taken where it fails. -/
def maybe (s : Scan α) : Scan (Option α) := fun cs =>
  match s cs with
  | some (a, rest) => some (some a, rest)
  | none => some (none, cs)

def either (s t : Scan α) : Scan α := fun cs =>
  (s cs).or (t cs)

def repeatWithin (s : Scan (Option α)) : Nat → Scan (List α)
  | 0 => return []
  | bound + 1 => do
    match ← s with
    | some a => return a :: (← repeatWithin s bound)
    | none => return []

/-- The answers of a scan up to the round that answers `none`. -/
def repeated (s : Scan (Option α)) : Scan (List α) := do
  repeatWithin s ((← get).length + 1)

/-- `item sep item …`, with at least one item. -/
def separated (separator : Scan Bool) (item : Scan α) : Scan (List α) := do
  let first ← item
  let others ← repeated do
    if ← separator then return some (← item) else return none
  return first :: others

/-- Tabs and spaces. -/
def blanks : Scan Unit := do
  let _ ← takeWhile fun c => c == ' ' || c == '\t'

/-- A line feed, perhaps with a carriage return in front of it. -/
def newline : Scan Bool := do
  if ← taken "\n" then return true else taken "\r\n"

/-- The characters that comments and literal strings may hold: no control codes but the tab. -/
def isVisible (c : Char) : Bool :=
  c == '\t' || (0x20 ≤ c.toNat && c.toNat ≠ 0x7f)

/-- A comment up to the end of its line. -/
def comment : Scan Unit := do
  if ← taken "#" then
    let _ ← takeWhile isVisible

/-- Blanks, a comment and the end of the line or of the text. -/
def endOfLine : Scan Unit := do
  blanks
  comment
  if (← get).isEmpty then return ()
  else if ← newline then return ()
  else failure

/-- Blanks, comments and line breaks, in any order. -/
def gap : Scan Unit := do
  let _ ← repeated do
    blanks
    comment
    if ← newline then return some () else return none

end Scan

end WebIdl.Toml
