/-!
# Dialects

The spellings beyond the standard grammar that a parse accepts, and whether it keeps trivia.
-/

namespace WebIdl

structure Dialect where
  /-- `class` may stand for `interface`. -/
  allowClass : Bool := false
  /-- `extends Base` may stand for `: Base`. -/
  allowExtends : Bool := false
  /-- Interface bodies may hold `typedef` members. -/
  allowNestedTypedefs : Bool := false
  /-- Blanks and comments are kept on the tree. -/
  keepTrivia : Bool := false
deriving DecidableEq, Repr

end WebIdl
