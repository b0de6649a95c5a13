import WebIdl.Text.Character

/-!
# Trimming and words

Text is trimmed and cut into words at Unicode white space.
-/

namespace WebIdl.Text

def trimStart (cs : List Char) : List Char :=
  cs.dropWhile isWhiteSpace

def trimEnd (cs : List Char) : List Char :=
  (cs.reverse.dropWhile isWhiteSpace).reverse

def trim (cs : List Char) : List Char :=
  trimEnd (trimStart cs)

/-- The words of a text, none of them empty. -/
def words : List Char → List (List Char)
  | [] => []
  | c :: rest =>
    if isWhiteSpace c then words rest
    else
      match rest, words rest with
      | next :: _, w :: ws => if isWhiteSpace next then [c] :: w :: ws else (c :: w) :: ws
      | _, ws => [c] :: ws

/-- The words with one space between them. -/
def unwords (ws : List (List Char)) : List Char :=
  [' '].intercalate ws

/-- The text with spaces behind it up to a width. -/
def padEnd (width : Nat) (cs : List Char) : List Char :=
  cs ++ List.replicate (width - cs.length) ' '

/-- The text with spaces in front of it up to a width. -/
def padStart (width : Nat) (cs : List Char) : List Char :=
  List.replicate (width - cs.length) ' ' ++ cs

theorem length_trimStart_le (cs : List Char) : (trimStart cs).length ≤ cs.length :=
  (List.dropWhile_sublist isWhiteSpace).length_le

end WebIdl.Text
