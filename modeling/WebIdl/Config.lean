import WebIdl.Index

/-!
# Configuration

The settings of the index builder. A layer gives some of them and overrides what it gives.
-/

namespace WebIdl

structure Config where
  dialect : Dialect := {}
  /-- The text between two fragments. -/
  separator : String := "\n"
  mergePartials : Bool := true
  pretty : Bool := true
deriving DecidableEq, Repr

structure ConfigLayer where
  allowClass : Option Bool := none
  allowExtends : Option Bool := none
  allowNestedTypedefs : Option Bool := none
  keepTrivia : Option Bool := none
  separator : Option String := none
  mergePartials : Option Bool := none
  pretty : Option Bool := none
deriving DecidableEq, Repr

namespace Config

def override (c : Config) (l : ConfigLayer) : Config where
  dialect :=
    { allowClass := l.allowClass.getD c.dialect.allowClass
      allowExtends := l.allowExtends.getD c.dialect.allowExtends
      allowNestedTypedefs := l.allowNestedTypedefs.getD c.dialect.allowNestedTypedefs
      keepTrivia := l.keepTrivia.getD c.dialect.keepTrivia }
  separator := l.separator.getD c.separator
  mergePartials := l.mergePartials.getD c.mergePartials
  pretty := l.pretty.getD c.pretty

def renderOptions (c : Config) : RenderOptions :=
  { dialect := c.dialect, mergePartials := c.mergePartials, pretty := c.pretty }

end Config

end WebIdl
