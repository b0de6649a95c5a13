/-!
# Surfaces

Where a finished text is shown. Memory collects what it is shown, and a file holds the last text.
-/

namespace WebIdl

inductive Surface where
  | memory (contents : String)
  | file (contents : String)
deriving DecidableEq, Repr

namespace Surface

def contents : Surface → String
  | memory s | file s => s

/-- The surface after it has been shown a text. -/
def present (text : String) : Surface → Surface
  | memory s => memory (s ++ text)
  | file _ => file text

end Surface

end WebIdl
