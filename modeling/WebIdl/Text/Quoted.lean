import WebIdl.Text.Printable

/-!
# Quoted text

How listings and messages show a text or a single character: between quotes, with the usual
short escapes, and with `\u{…}` in lower-case hexadecimal for what would not show itself.
-/

namespace WebIdl.Text

def hexDigits (n : Nat) : List Char :=
  Nat.toDigits 16 n

/-- One character between quotes of the given kind. -/
def escape (quote c : Char) : List Char :=
  if c = '\x00' then ['\\', '0']
  else if c = '\t' then ['\\', 't']
  else if c = '\r' then ['\\', 'r']
  else if c = '\n' then ['\\', 'n']
  else if c = '\\' ∨ c = quote then ['\\', c]
  else if isPrintable c then [c]
  else ['\\', 'u', '\x7b'] ++ hexDigits c.toNat ++ ['\x7d']

def quote (text : String) : String :=
  String.ofList ('"' :: text.toList.flatMap (escape '"') ++ ['"'])

def quoteChar (c : Char) : String :=
  String.ofList ('\x27' :: escape '\x27' c ++ ['\x27'])

end WebIdl.Text
