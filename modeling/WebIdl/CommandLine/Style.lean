/-!
# Terminal styles

Text is set in a style by the escape sequences of a terminal, or left alone where colours are
off.
-/

namespace WebIdl.CommandLine

/-- The codes that switch a style on. -/
structure Style where
  codes : List String
deriving DecidableEq, Repr

namespace Style

def plain : Style := ⟨[]⟩
def bold : Style := ⟨["1"]⟩
def dimmed : Style := ⟨["2"]⟩
def red : Style := ⟨["31"]⟩
def green : Style := ⟨["32"]⟩
def yellow : Style := ⟨["33"]⟩
def blue : Style := ⟨["34"]⟩
def magenta : Style := ⟨["35"]⟩
def cyan : Style := ⟨["36"]⟩
def boldUnderlined : Style := ⟨["1", "4"]⟩
def boldRed : Style := ⟨["1", "31"]⟩
def boldGreen : Style := ⟨["1", "32"]⟩
def boldYellow : Style := ⟨["1", "33"]⟩
def boldCyan : Style := ⟨["1", "36"]⟩

/-- The sequence that switches all styles off. -/
def reset : List Char :=
  "\x1b[0m".toList

def start (s : Style) : List Char :=
  "\x1b[".toList ++ (";".intercalate s.codes).toList ++ ['m']

/-- Switches the style on again behind each reset that the text holds itself. -/
def restart (s : Style) : List Char → List Char
  | '\x1b' :: '[' :: '0' :: 'm' :: rest => reset ++ s.start ++ restart s rest
  | c :: rest => c :: restart s rest
  | [] => []

def paint (s : Style) (colours : Bool) (text : String) : String :=
  if colours && !s.codes.isEmpty then
    String.ofList (s.start ++ s.restart text.toList ++ reset)
  else text

end Style

end WebIdl.CommandLine
