import WebIdl.Text.Position
import WebIdl.Text.Quoted
import WebIdl.Token.Lexer

/-!
# Tokenizing a text

`tokenize` cuts a whole text or names the character, and its place, at which cutting stops.
-/

namespace WebIdl

/-- A character that begins no token. -/
structure LexError where
  char : Char
  position : Position
deriving DecidableEq, Repr

namespace LexError

def message (e : LexError) : String :=
  "Token stream not progressing: unexpected character " ++ Text.quoteChar e.char ++ " at " ++
    e.position.describe

end LexError

/-- The tokens of a text. The place of a failure is read off the tokens before it. -/
def tokenize (text : String) : Except LexError (List Token) :=
  match Lexer.scan text.toList with
  | (tokens, []) => .ok tokens
  | (tokens, c :: _) => .error ⟨c, Position.after (Token.source tokens).toList⟩

end WebIdl
