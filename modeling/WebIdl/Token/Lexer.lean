import WebIdl.Token
import WebIdl.Token.Numeral

/-!
# Cutting text into tokens

At every place the rules are tried in a fixed order (float, integer, identifier, string,
whitespace, symbol) and the first that matches takes its longest lexeme. The only characters
that no rule takes are control codes, so cutting fails at the first control code outside
strings and comments, and nowhere else.
-/

namespace WebIdl.Lexer

open Text Numeral

def identifierLength : List Char → Nat
  | [] => 0
  | c :: rest => if isWordStart c then 1 + run isWordPart rest else 0

/-- A string reaches to the next quote. A quote that is never answered is no string. -/
def stringLength : List Char → Nat
  | '"' :: rest =>
    let body := run (· != '"') rest
    if body < rest.length then body + 2 else 0
  | _ => 0

/-- The number of characters up to and including the first `*/`. -/
def blockCommentEnd? : List Char → Option Nat
  | [] => none
  | c :: rest =>
    if c = '*' ∧ rest.head? = some '/' then some 2
    else (blockCommentEnd? rest).map (· + 1)

/-- The length of a comment at the start of the text. An unclosed block comment is none. -/
def commentLength : List Char → Nat
  | '/' :: '/' :: rest => 2 + run (!isLineBreak ·) rest
  | '/' :: '*' :: rest => ((blockCommentEnd? rest).map (· + 2)).getD 0
  | _ => 0

@[simp] theorem commentLength_nil : commentLength [] = 0 := rfl

/-- Blanks and comments in any order, as far as they reach. -/
def whitespaceLength (cs : List Char) : Nat :=
  let blanks := run isBlank cs
  match _h : commentLength (cs.drop blanks) with
  | 0 => blanks
  | n + 1 => blanks + (n + 1) + whitespaceLength (cs.drop (blanks + (n + 1)))
termination_by cs.length
decreasing_by
  cases cs with
  | nil => simp at _h
  | cons c cs =>
    simp only [List.length_drop, List.length_cons]
    omega

@[simp] theorem whitespaceLength_nil : whitespaceLength [] = 0 := by
  rw [whitespaceLength]
  split
  · rfl
  · next h => simp at h

def symbolLength : List Char → Nat
  | [] => 0
  | c :: _ => if isSymbol c then 1 else 0

/-- The kinds with the length that each would take, in the order in which they are tried. -/
def rules : List (TokenKind × (List Char → Nat)) :=
  [(.float, floatLength), (.integer, integerLength), (.identifier, identifierLength),
    (.string, stringLength), (.whitespace, whitespaceLength), (.other, symbolLength)]

/-- Kind and length of the token at the start of the text. -/
def lexeme? (cs : List Char) : Option (TokenKind × Nat) :=
  rules.findSome? fun (kind, length) =>
    let n := length cs
    if n = 0 then none else some (kind, n)

theorem lexeme?_pos {cs : List Char} {kind : TokenKind} {n : Nat}
    (h : lexeme? cs = some (kind, n)) : 0 < n := by
  obtain ⟨rule, _, hr⟩ := List.exists_of_findSome?_eq_some h
  simp only at hr
  split at hr
  · simp at hr
  · simp only [Option.some.injEq, Prod.mk.injEq] at hr
    omega

@[simp] theorem lexeme?_nil : lexeme? [] = none := by
  simp [lexeme?, rules, floatLength, integerLength, identifierLength, stringLength, symbolLength,
    minusLength, decimalLength, wholeLength, run, exponentLength]

theorem length_drop_lt_of_lexeme? {cs : List Char} {kind : TokenKind} {n : Nat}
    (h : lexeme? cs = some (kind, n)) : (cs.drop n).length < cs.length := by
  have hn := lexeme?_pos h
  cases cs with
  | nil => simp at h
  | cons c cs =>
    simp only [List.length_drop, List.length_cons]
    omega

/-- The tokens of a text, and the part of it from the first character that no rule takes. -/
def scan (cs : List Char) : List Token × List Char :=
  match _h : lexeme? cs with
  | none => ([], cs)
  | some (kind, n) =>
    let (tokens, rest) := scan (cs.drop n)
    (⟨kind, String.ofList (cs.take n)⟩ :: tokens, rest)
termination_by cs.length
decreasing_by exact length_drop_lt_of_lexeme? _h

end WebIdl.Lexer
