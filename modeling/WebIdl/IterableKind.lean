/-!
# Kinds of iterable declaration
-/

namespace WebIdl

inductive IterableKind where
  | iterable
  | legacyIterable
  | maplike
  | setlike
deriving DecidableEq, Repr

namespace IterableKind

def keyword : IterableKind → String
  | iterable => "iterable"
  | legacyIterable => "legacyiterable"
  | maplike => "maplike"
  | setlike => "setlike"

/-- A key type may stand in front of the value type. -/
def allowsSecond : IterableKind → Bool
  | iterable | maplike => true
  | legacyIterable | setlike => false

/-- Both a key and a value type have to be given. -/
def requiresSecond : IterableKind → Bool
  | maplike => true
  | iterable | legacyIterable | setlike => false

end IterableKind

end WebIdl
