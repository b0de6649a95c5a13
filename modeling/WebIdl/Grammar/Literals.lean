import WebIdl.Grammar.Reader
import WebIdl.Literal

/-!
# Reading literals
-/

namespace WebIdl.Grammar

variable {m : Type → Type} [Monad m] [MonadStateOf Cursor m] [MonadExceptOf ParseError m]

/-- A literal that is a single keyword. -/
def plainLiteral (word : String) (value : Literal) : m (Option Literal) := do
  return if ← keyword word then some value else none

def numeral : m (Option Literal) := do
  skip
  let text (t : Token) : Literal := .number t.text
  firstOf [mapped text (token .float none), mapped text (token .integer none)]

/-- `-Infinity`. Where a minus stands before anything else, the last token that was read for it
goes back: the minus, or the whitespace behind it. -/
def negativeInfinity : m (Option Literal) := do
  if ← symbol "-" then
    if ← keyword "Infinity" then
      return some (.infinity true)
    else
      modify Cursor.unconsume
      return none
  else
    return none

def constValue : m (Option Literal) :=
  firstOf [plainLiteral "true" (.boolean true), plainLiteral "false" (.boolean false),
    plainLiteral "null" .null, plainLiteral "Infinity" (.infinity false),
    plainLiteral "NaN" .nan, numeral, negativeInfinity]

/-- A text without the quotes at its ends. -/
def unquote (text : String) : String :=
  String.ofList
    (((text.toList.dropWhile (· == '"')).reverse.dropWhile (· == '"')).reverse)

/-- `[]`. -/
def emptySequence : m (Option Literal) := do
  if ← symbol "[" then
    expectSymbol "]" .filledSequence
    return some .emptySequence
  else
    return none

def stringLiteral : m (Option Literal) := do
  skip
  mapped (fun t => .string (unquote t.text)) (token .string none)

/-- `= value`, behind an optional argument or a dictionary member. -/
def defaultValue : m (Option Literal) := do
  if ← symbol "=" then
    return some (← expect .noDefault (firstOf [constValue, emptySequence, stringLiteral]))
  else
    return none

end WebIdl.Grammar
