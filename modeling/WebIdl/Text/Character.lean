/-!
# Character classes

The classes that decide how WebIDL text is cut into tokens. Words, numbers and blanks are
made of ASCII characters alone; every other character that is not a control character stands
for itself.
-/

namespace WebIdl.Text

/-- Blanks separate tokens: tab, line feed, carriage return and space. -/
def isBlank (c : Char) : Bool :=
  c == '\t' || c == '\n' || c == '\r' || c == ' '

/-- A line comment runs up to the first of these. -/
def isLineBreak (c : Char) : Bool :=
  c == '\n' || c == '\r'

/-- The Unicode category Cc: both blocks of control codes and DEL. -/
def isControl (c : Char) : Bool :=
  c.toNat < 0x20 || (0x7f ≤ c.toNat && c.toNat ≤ 0x9f)

def isWordStart (c : Char) : Bool :=
  c.isAlpha || c == '_'

def isWordPart (c : Char) : Bool :=
  c.isAlphanum || c == '_'

def isOctalDigit (c : Char) : Bool :=
  '0' ≤ c && c ≤ '7'

def isHexDigit (c : Char) : Bool :=
  c.isDigit || ('a' ≤ c && c ≤ 'f') || ('A' ≤ c && c ≤ 'F')

/-- The characters that are tokens of their own: no blank, no part of a word, no control code. -/
def isSymbol (c : Char) : Bool :=
  !isBlank c && !isWordPart c && !isControl c

/-- The Unicode property White_Space. -/
def isWhiteSpace (c : Char) : Bool :=
  let n := c.toNat
  (0x09 ≤ n && n ≤ 0x0d) || n == 0x20 || n == 0x85 || n == 0xa0 || n == 0x1680 ||
    (0x2000 ≤ n && n ≤ 0x200a) || n == 0x2028 || n == 0x2029 || n == 0x202f || n == 0x205f ||
    n == 0x3000

/-- The number of line feeds, which alone end a line. -/
def lineFeeds (cs : List Char) : Nat :=
  cs.count '\n'

@[simp] theorem lineFeeds_nil : lineFeeds [] = 0 := rfl

@[simp] theorem lineFeeds_append (xs ys : List Char) :
    lineFeeds (xs ++ ys) = lineFeeds xs + lineFeeds ys := by
  simp [lineFeeds]

/-- The number of bytes of the UTF-8 encoding. -/
def utf8Size : List Char → Nat
  | [] => 0
  | c :: cs => c.utf8Size + utf8Size cs

theorem isWhiteSpace_of_isBlank {c : Char} (h : isBlank c) : isWhiteSpace c := by
  simp only [isBlank, Bool.or_eq_true, beq_iff_eq] at h
  rcases h with ((rfl | rfl) | rfl) | rfl <;> rfl

end WebIdl.Text
