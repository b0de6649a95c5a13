/-!
# Literals

The values of constants and defaults.
-/

namespace WebIdl

inductive Literal where
  | boolean (value : Bool)
  | null
  | infinity (negative : Bool)
  | nan
  /-- A numeral in its source spelling. -/
  | number (spelling : String)
  /-- A string without its quotes. -/
  | string (value : String)
  /-- The empty sequence `[]`, which only a default may be. -/
  | emptySequence
deriving DecidableEq, Repr

end WebIdl
