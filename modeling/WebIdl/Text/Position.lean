import WebIdl.Text.Character

/-!
# Positions

A place in a text, told by what stands before it.
-/

namespace WebIdl

/-- `offset` counts UTF-8 bytes from zero, `line` and `column` count from one. A column is one
Unicode scalar value wide. -/
structure Position where
  offset : Nat
  line : Nat
  column : Nat
deriving DecidableEq, Repr

namespace Position

/-- The place right behind a text. -/
def after (cs : List Char) : Position where
  offset := Text.utf8Size cs
  line := 1 + Text.lineFeeds cs
  column := 1 + (cs.reverse.takeWhile (· != '\n')).length

def describe (p : Position) : String :=
  "line " ++ toString p.line ++ ", column " ++ toString p.column

end Position

end WebIdl
