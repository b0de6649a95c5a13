import WebIdl.Config
import WebIdl.Toml.Document

/-!
# Configuration files

A configuration file is a TOML document whose top-level keys are the settings. Other keys and
tables are left aside, but a setting of a wrong type spoils the file.
-/

namespace WebIdl.ConfigLayer

open Toml

/-- A key that may be missing but has to have the right type. -/
def setting {α : Type} (root : Table) (key : String) (read : Value → Option α) :
    Option (Option α) :=
  match root.find? key with
  | none => some none
  | some (.value v) => (read v).map some
  | some _ => none

def readBoolean : Value → Option Bool
  | .boolean b => some b
  | _ => none

def readString : Value → Option String
  | .string s => some s
  | _ => none

/-- The settings that a file holds, if it is a well-formed configuration. -/
def ofText? (text : String) : Option ConfigLayer := do
  let root ← Document.ofText? text
  return {
    allowClass := ← setting root "allow_class" readBoolean
    allowExtends := ← setting root "allow_extends" readBoolean
    allowNestedTypedefs := ← setting root "allow_nested_typedefs" readBoolean
    keepTrivia := ← setting root "capture_trivia" readBoolean
    separator := ← setting root "separator" readString
    mergePartials := ← setting root "merge_partials" readBoolean
    pretty := ← setting root "pretty" readBoolean }

end WebIdl.ConfigLayer
