import WebIdl.Text.Character

/-!
# Tokens

A token is a lexeme and its kind. Whitespace tokens hold the blanks and comments between the
others, so a token list loses nothing of its text: `Token.source` gives it back.
-/

namespace WebIdl

inductive TokenKind where
  | float
  | integer
  | identifier
  | string
  | whitespace
  | other
deriving DecidableEq, Repr

/-- The lower-case name of a kind, as listings show it. -/
def TokenKind.name : TokenKind → String
  | .float => "float"
  | .integer => "integer"
  | .identifier => "identifier"
  | .string => "string"
  | .whitespace => "whitespace"
  | .other => "other"

structure Token where
  kind : TokenKind
  text : String
deriving DecidableEq, Repr

namespace Token

/-- The number of line feeds inside the token. -/
def newlines (t : Token) : Nat :=
  Text.lineFeeds t.text.toList

/-- The number of line feeds inside the tokens of a list. -/
def lineFeeds : List Token → Nat
  | [] => 0
  | t :: ts => t.newlines + lineFeeds ts

def isWhitespace (t : Token) : Bool :=
  t.kind == .whitespace

/-- The token with one leading `_` taken off, where it is an identifier that has one. -/
def unescape (t : Token) : Token :=
  match t.kind, t.text.toList with
  | .identifier, '_' :: rest => ⟨.identifier, String.ofList rest⟩
  | _, _ => t

/-- The text that a token list was cut from. -/
def source (ts : List Token) : String :=
  String.join (ts.map Token.text)

/-- A blank or comment run. -/
def blank (text : String) : Token :=
  ⟨.whitespace, text⟩

def word (text : String) : Token :=
  ⟨.identifier, text⟩

def mark (text : String) : Token :=
  ⟨.other, text⟩

end Token

end WebIdl
