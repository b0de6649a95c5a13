import WebIdl.Index

/-!
# Fragments

Blocks of source text that know where they came from, and the way back from a line of their
combination to the fragment that holds it.
-/

namespace WebIdl

structure Fragment where
  origin : String
  text : String
deriving DecidableEq, Repr

/-- A line of a fragment. -/
structure Location where
  origin : String
  line : Nat
deriving DecidableEq, Repr

namespace Fragment

def newlines (f : Fragment) : Nat :=
  Text.lineFeeds f.text.toList

def combine (separator : String) (fragments : List Fragment) : String :=
  combineTexts separator (fragments.map Fragment.text)

/-- The fragment that holds a line, where the first fragment begins on line `start` and each
separator holds `gap` line feeds. A line that two fragments share belongs to the first. -/
def locateFrom (gap line start : Nat) : List Fragment → Option Location
  | [] => none
  | f :: fs =>
    let last := start + f.newlines
    if line ≤ last then
      if start ≤ line then some ⟨f.origin, line - start + 1⟩ else none
    else locateFrom gap line (last + gap) fs

def locate (separator : String) (line : Nat) (fragments : List Fragment) : Option Location :=
  locateFrom (Text.lineFeeds separator.toList) line 1 fragments

end Fragment

/-- An error of combined fragments with the place it belongs to. -/
structure LocatedError where
  location : Option Location
  error : Error
deriving DecidableEq, Repr

namespace LocatedError

def message (e : LocatedError) : String :=
  match e.location with
  | some l => "Invalid WebIDL in " ++ l.origin ++ " at line " ++ toString l.line
  | none => "Invalid WebIDL"

/-- The message and those of its causes, outermost first. -/
def chain (e : LocatedError) : List String :=
  [e.message, e.error.message, e.error.cause]

end LocatedError

namespace Fragment

def withLocation (separator : String) (fragments : List Fragment) (e : Error) : LocatedError :=
  ⟨locate separator e.line fragments, e⟩

/-- The result of reading the combination, with errors put into place. -/
def readCombined {α : Type} (separator : String) (fragments : List Fragment)
    (read : String → Except Error α) : Except LocatedError α :=
  (read (combine separator fragments)).mapError (withLocation separator fragments)

end Fragment

end WebIdl
