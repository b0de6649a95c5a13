import WebIdl.Cursor
import WebIdl.Dialect
import WebIdl.Trivia

/-!
# Readers

A reader moves a cursor and answers a value, or stops the whole parse with an error. The grammar
is written over any monad that can do both, so that a run of it may also be watched; to parse is to
run it as a plain `Reader`. A
production answers `none` when what it reads does not begin here, so that the caller may try
another one; the whitespace it skipped to find that out stays skipped. Once it has committed
itself, what is missing is an error.

Loops are bounded by the number of tokens that are left when they start. Each round but the last
reads a token, so the bound is never reached.
-/

namespace WebIdl.Grammar

abbrev Reader := StateT Cursor (Except ParseError)

variable {m : Type → Type} [Monad m] [MonadStateOf Cursor m] [MonadExceptOf ParseError m]

variable {α β σ : Type}

def fail (reason : Reason) : m α := do
  throw ((← get).fail reason)

/-- Reads the whitespace that comes next. -/
def skip : m Unit :=
  modify Cursor.skip

/-- Reads the whitespace that comes next and keeps it if the dialect asks for that. -/
def trivia (d : Dialect) : m (List Trivia) := do
  let text := Token.source (← get).gap
  skip
  return if d.keepTrivia then Trivia.ofText text else []

/-- The next token, if it has the kind and the text asked for. -/
def token (kind : TokenKind) (text : Option String) : m (Option Token) := do
  match (← get).consume? kind text with
  | none => return none
  | some (t, c) =>
    set c
    return some t

def keyword (word : String) : m Bool := do
  skip
  return (← token .identifier (some word)).isSome

def symbol (mark : String) : m Bool := do
  skip
  return (← token .other (some mark)).isSome

/-- A name, which loses its escape mark. -/
def identifier : m (Option String) := do
  skip
  return (← token .identifier none).map Token.text

/-- The production, which has to match. -/
def expect (reason : Reason) (p : m (Option α)) : m α := do
  match ← p with
  | some a => return a
  | none => fail reason

def expectSymbol (mark : String) (reason : Reason) : m Unit := do
  if ← symbol mark then return () else fail reason

def expectIdentifier (reason : Reason) : m String :=
  expect reason identifier

/-- The production, or `none` with the cursor put back where it stood. -/
def attempt (p : m (Option α)) : m (Option α) := do
  let start ← get
  match ← p with
  | some a => return some a
  | none =>
    set start
    return none

/-- The answer of the first production that matches. -/
def firstOf : List (m (Option α)) → m (Option α)
  | [] => return none
  | p :: ps => do
    match ← p with
    | some a => return some a
    | none => firstOf ps

/-- The production, its answer put to use. -/
def mapped (f : α → β) (p : m (Option α)) : m (Option β) := do
  return (← p).map f

/-- Runs a reader with a bound on its rounds that no input reaches. -/
def bounded (p : Nat → m α) : m α := do
  p ((← get).remaining + 1)

/-- The answers of `step` up to the round that answers `inr`. -/
def untilWithin (step : m (α ⊕ β)) : Nat → m (List α × β)
  | 0 => fail .unrecognised
  | bound + 1 => do
    match ← step with
    | .inl a =>
      let (as, b) ← untilWithin step bound
      return (a :: as, b)
    | .inr b => return ([], b)

def untilDone (step : m (α ⊕ β)) : m (List α × β) :=
  bounded (untilWithin step)

/-- The answers of `step` as long as it matches. -/
def many (step : m (Option α)) : m (List α) := do
  let round : m (α ⊕ Unit) := do
    match ← step with
    | some a => return .inl a
    | none => return .inr ()
  return (← untilDone round).1

/-- The state after `step` as long as it matches. -/
def iterateWithin (step : σ → m (Option σ)) : Nat → σ → m σ
  | 0, s => return s
  | bound + 1, s => do
    match ← step s with
    | some t => iterateWithin step bound t
    | none => return s

def iterate (step : σ → m (Option σ)) (s : σ) : m σ :=
  bounded fun bound => iterateWithin step bound s

/-- `, item, item`: the items behind commas. -/
def afterCommas (item : m α) : m (List α) :=
  many do
    if ← symbol "," then
      return some (← item)
    else
      return none

/-- `item, item`: none at all, or a first item and those behind commas. -/
def commaSeparated (first : m (Option α)) (next : m α) :
    m (Option (List α)) := do
  match ← first with
  | none => return none
  | some a => return some (a :: (← afterCommas next))

/-- The entries of a body up to its closing brace, and the trivia in front of that brace. -/
def body (d : Dialect) (entry : List Trivia → m α) : m (List α × List Trivia) :=
  untilDone do
    let leading ← trivia d
    if ← symbol "\x7d" then
      return .inr leading
    else
      return .inl (← entry leading)

end WebIdl.Grammar
