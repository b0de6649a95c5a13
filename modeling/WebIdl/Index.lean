import WebIdl.Grammar.Definitions
import WebIdl.Layout.Print
import WebIdl.Merge
import WebIdl.Spelling

/-!
# Rendering an index

From source fragments to the text of an index: the fragments are joined, parsed, merged, written
and laid out.
-/

namespace WebIdl

structure RenderOptions where
  dialect : Dialect := {}
  /-- Partial definitions are folded into their targets. -/
  mergePartials : Bool := true
  /-- The written text is laid out. -/
  pretty : Bool := true
deriving DecidableEq, Repr

structure Rendered where
  text : String
  warnings : List MergeWarning
deriving DecidableEq, Repr

namespace RenderOptions

def merge (o : RenderOptions) (definitions : List Definition) : Merged :=
  if o.mergePartials then WebIdl.mergePartials definitions else { definitions }

def layOut (o : RenderOptions) (text : String) : String :=
  if o.pretty then Layout.print Layout.standardIndent text else text

end RenderOptions

/-- The index of a text. -/
def render (o : RenderOptions) (text : String) : Except Error Rendered := do
  let program ← parseText o.dialect text
  let merged := o.merge program.definitions
  return ⟨o.layOut (writeDefinitions merged.definitions), merged.warnings⟩

/-- Texts in order with a separator between each pair. -/
def combineTexts (separator : String) (texts : List String) : String :=
  separator.intercalate texts

/-- The index of fragments joined by line feeds. -/
def renderIndex (o : RenderOptions) (fragments : List String) : Except Error Rendered :=
  render o (combineTexts "\n" fragments)

/-- The index of a text with the standard options, its warnings left aside. -/
def prettyPrint (text : String) : Except Error String :=
  (render {} text).map Rendered.text

end WebIdl
