import WebIdl.Definition

/-!
# Merging partial definitions

A partial definition is folded into the first earlier definition of its name that is not partial
and has a member list. Canonical definitions keep their order, and members are added in the order
of the partials. A partial without a target is dropped with a warning.
-/

namespace WebIdl

/-- A partial definition that found no target. -/
structure MergeWarning where
  name : String
deriving DecidableEq, Repr

def MergeWarning.message (w : MergeWarning) : String :=
  "Partial definition comes before the real one (" ++ w.name ++ ")"

structure Merged where
  definitions : List Definition := []
  warnings : List MergeWarning := []

namespace Merged

/-- Whether a definition can take the members of a partial of this name. -/
def isTarget (name : String) (d : Definition) : Bool :=
  d.name == name && d.members?.isSome

/-- The definitions with the members added to the first target, if there is one. -/
def extendTarget (name : String) (more : List Member) : List Definition → Option (List Definition)
  | [] => none
  | d :: ds =>
    if isTarget name d then some (d.addMembers more :: ds)
    else (extendTarget name more ds).map (d :: ·)

/-- Takes in one more definition. -/
def add (m : Merged) (d : Definition) : Merged :=
  if d.isPartial then
    match extendTarget d.name (d.members?.getD []) m.definitions with
    | some definitions => { m with definitions }
    | none => { m with warnings := m.warnings ++ [⟨d.name⟩] }
  else { m with definitions := m.definitions ++ [d] }

end Merged

def mergePartials (definitions : List Definition) : Merged :=
  definitions.foldl Merged.add {}

end WebIdl
