import WebIdl.ParseError

/-!
# Cursors

A reading position in a token list: the tokens already read, nearest first, and those still to
come. A cursor is a value, so a production that tries an alternative keeps the cursor it started
from and goes back by using it again. The line counts the line feeds of the whitespace that was
skipped.
-/

namespace WebIdl

structure Cursor where
  before : List Token
  after : List Token
  line : Nat
deriving DecidableEq, Repr

namespace Cursor

/-- The most tokens that an error shows. -/
def errorContext : Nat := 5

def ofTokens (tokens : List Token) : Cursor :=
  ⟨[], tokens, 1⟩

/-- The whole list that the cursor moves over. -/
def tokens (c : Cursor) : List Token :=
  c.before.reverse ++ c.after

/-- The number of tokens already read. -/
def position (c : Cursor) : Nat :=
  c.before.length

/-- The number of tokens still to come. -/
def remaining (c : Cursor) : Nat :=
  c.after.length

def peek? (c : Cursor) : Option Token :=
  c.after.head?

def atEnd (c : Cursor) : Bool :=
  c.after.isEmpty

/-- Reads the next token if it has the kind, and the text where one is asked for. The text is
compared as it stands; an identifier then loses its escape mark, so that `_interface` is never
taken for a keyword. -/
def consume? (c : Cursor) (kind : TokenKind) (text : Option String) : Option (Token × Cursor) :=
  match c.after with
  | [] => none
  | t :: rest =>
    if t.kind = kind ∧ text.all (· = t.text) then
      some (t.unescape, ⟨t :: c.before, rest, c.line⟩)
    else none

/-- Steps back over the token read last. -/
def unconsume (c : Cursor) : Cursor :=
  match c.before with
  | [] => c
  | t :: earlier =>
    ⟨earlier, t :: c.after, if t.isWhitespace then c.line - t.newlines else c.line⟩

/-- The whitespace tokens that come next. -/
def gap (c : Cursor) : List Token :=
  c.after.takeWhile Token.isWhitespace

/-- Reads all whitespace up to the next token of another kind. -/
def skip (c : Cursor) : Cursor :=
  ⟨c.gap.reverse ++ c.before, c.after.dropWhile Token.isWhitespace,
    c.line + Token.lineFeeds c.gap⟩

/-- The error of a production that fails here. -/
def fail (c : Cursor) (reason : Reason) : ParseError :=
  ⟨reason, c.line, c.after.take errorContext⟩

@[simp] theorem tokens_ofTokens (ts : List Token) : (ofTokens ts).tokens = ts := by
  simp [ofTokens, tokens]

@[simp] theorem tokens_skip (c : Cursor) : c.skip.tokens = c.tokens := by
  simp [skip, tokens, gap, List.append_assoc]

@[simp] theorem tokens_unconsume (c : Cursor) : c.unconsume.tokens = c.tokens := by
  unfold unconsume
  split
  · rfl
  · next h => simp [tokens, h]

theorem tokens_of_consume? {c d : Cursor} {kind : TokenKind} {text : Option String} {t : Token}
    (h : c.consume? kind text = some (t, d)) : d.tokens = c.tokens := by
  unfold consume? at h
  split at h
  · simp at h
  · next u rest hu =>
    split at h
    · simp only [Option.some.injEq, Prod.mk.injEq] at h
      simp [← h.2, tokens, hu]
    · simp at h

end Cursor

end WebIdl
