import WebIdl.Token.Lexer

/-!
# Trivia

The blanks and comments that a parse may keep beside the construct they stand next to.
-/

namespace WebIdl

inductive Trivia where
  | whitespace (text : String)
  /-- The text behind `//`, without the line break. -/
  | lineComment (text : String)
  /-- The text between `/*` and `*/`. -/
  | blockComment (text : String)
deriving DecidableEq, Repr

namespace Trivia

open Text

def text : Trivia → String
  | whitespace s => s
  | lineComment s => "//" ++ s
  | blockComment s => "/*" ++ s ++ "*/"

/-- Written back, a piece of trivia is a whitespace token. -/
def token (t : Trivia) : Token :=
  Token.blank t.text

/-- The characters in front of the first `*/`, or all of them where there is none. -/
def commentBody (cs : List Char) : List Char :=
  match Lexer.blockCommentEnd? cs with
  | some n => cs.take (n - 2)
  | none => cs

/-- Splits a run of blanks and comments into pieces. Where neither a blank nor a comment
follows, the rest is one piece as it stands. -/
def pieces (cs : List Char) : List Trivia :=
  match cs with
  | [] => []
  | '/' :: '/' :: rest =>
    .lineComment (String.ofList (rest.takeWhile (!isLineBreak ·))) ::
      pieces (rest.dropWhile (!isLineBreak ·))
  | '/' :: '*' :: rest =>
    .blockComment (String.ofList (commentBody rest)) ::
      pieces (rest.drop ((commentBody rest).length + 2))
  | c :: rest =>
    if isBlank c then
      .whitespace (String.ofList (c :: rest.takeWhile isBlank)) :: pieces (rest.dropWhile isBlank)
    else [.whitespace (String.ofList (c :: rest))]
termination_by cs.length
decreasing_by
  · have := (List.dropWhile_sublist (l := rest) (!isLineBreak ·)).length_le
    simp only [List.length_cons]
    omega
  · simp only [List.length_cons, List.length_drop]
    omega
  · have := (List.dropWhile_sublist (l := rest) isBlank).length_le
    simp only [List.length_cons]
    omega

/-- The pieces of the text of a whitespace run. -/
def ofText (text : String) : List Trivia :=
  pieces text.toList

end Trivia

end WebIdl
