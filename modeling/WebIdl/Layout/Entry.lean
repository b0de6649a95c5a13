import WebIdl.Layout.Exposure
import WebIdl.Text.Words
import WebIdl.Token.Lexer

/-!
# Statements and entries

What a written text is laid out as. A statement may be a block with a header and a body; a body
holds comments and declarations; and the declaration of a dictionary member has a type column, a
name and perhaps a default.
-/

namespace WebIdl.Layout

open Text

/-- The comment that a text starts with, and what follows it. An unclosed comment reaches to the
end. -/
def comment? : List Char → Option (List Char × List Char)
  | '/' :: '/' :: rest =>
    some (trimEnd ('/' :: '/' :: rest.takeWhile (· != '\n')), rest.dropWhile (· != '\n'))
  | '/' :: '*' :: rest =>
    let length := (Lexer.blockCommentEnd? rest).getD rest.length
    some ('/' :: '*' :: rest.take length, rest.drop length)
  | _ => none

theorem length_lt_of_comment? {cs comment rest : List Char}
    (h : comment? cs = some (comment, rest)) : rest.length < cs.length := by
  unfold comment? at h
  split at h
  · next tail =>
    have := (List.dropWhile_sublist (l := tail) (· != '\n')).length_le
    simp only [Option.some.injEq, Prod.mk.injEq] at h
    simp only [← h.2, List.length_cons]
    omega
  · simp only [Option.some.injEq, Prod.mk.injEq] at h
    simp only [← h.2, List.length_cons, List.length_drop]
    omega
  · simp at h

/-- The comments at the start of a text, and the rest of it trimmed. -/
def leadingComments (cs : List Char) : List (List Char) × List Char :=
  match _h : comment? (trimStart cs) with
  | none => ([], trim cs)
  | some (comment, rest) =>
    let (comments, text) := leadingComments rest
    (comment :: comments, text)
termination_by cs.length
decreasing_by
  have := length_lt_of_comment? _h
  have := length_trimStart_le cs
  omega

/-- The header and the body of a statement with braces, the outer pair taken off. -/
def block? (statement : List Char) : Option (List Char × List Char) := do
  let (header, rest) ← cutAt? '\x7b' statement
  match (trimEnd rest).reverse with
  | '\x7d' :: body => some (trim header, body.reverse)
  | _ => none

/-- A text without its extended attributes: what stands from the first exposed character behind
the bracket that opens them. -/
def skipAttributes (cs : List Char) : List Char :=
  match exposure cs with
  | ('[', _) :: rest =>
    (rest.dropWhile fun (c, exposed) => !(exposed && !isWhiteSpace c)).map Prod.fst
  | _ => cs

/-- A text without a leading `partial`. -/
def skipPartial (cs : List Char) : List Char :=
  let mark := "partial".toList
  if mark.isPrefixOf cs then trimStart (cs.drop mark.length) else cs

/-- The word that tells what a block defines. -/
def definitionKeyword (header : List Char) : List Char :=
  (skipPartial (skipAttributes (leadingComments header).2)).takeWhile isWordPart

inductive Entry where
  | comment (text : List Char)
  | declaration (text : List Char)
deriving DecidableEq, Repr

def Entry.isDeclaration : Entry → Bool
  | comment _ => false
  | declaration _ => true

/-- The comments in front of a declaration and the declaration, unless it is empty. -/
def pieceEntries (piece : List Char) : List Entry :=
  let (comments, text) := leadingComments piece
  comments.map .comment ++ if text.isEmpty then [] else [.declaration text]

/-- The entries of a body whose declarations end at a separator. -/
def entries (separator : Char) (body : List Char) : List Entry :=
  let (pieces, last) := split separator body
  (pieces ++ [last]).flatMap pieceEntries

/-- A dictionary member. Its name is the last word in front of the `=`. -/
structure FieldText where
  type : List Char
  name : List Char
  default : Option (List Char)
deriving DecidableEq, Repr

def FieldText.ofDeclaration (text : List Char) : FieldText :=
  let (front, default) :=
    match cutAt? '=' text with
    | some (front, back) => (front, some (trim back))
    | none => (text, none)
  let ws := words front
  { type := unwords ws.dropLast, name := ws.getLastD [], default }

end WebIdl.Layout
