/-!
# TOML tables

The tree that a TOML document describes and the rules by which its keys may build it: a key is
given once, a table is opened once, and dotted keys only add to tables that dotted keys made.
-/

namespace WebIdl.Toml

/-- A value. Of those that no setting can have only the kind is kept. -/
inductive Value where
  | string (value : String)
  | boolean (value : Bool)
  | number
  | dateTime
  | array
  | inlineTable
deriving DecidableEq, Repr

/-- How a table came about. -/
inductive Origin where
  /-- It has a header of its own, or is the root. -/
  | header
  /-- It was only named on the way to another table. -/
  | path
  /-- A dotted key made it. -/
  | dotted
deriving DecidableEq, Repr

mutual

inductive Node where
  | value (v : Value)
  | table (t : Table)
  /-- An array of tables, the one opened last in front. -/
  | tables (last : Table) (earlier : List Table)

inductive Table where
  | mk (origin : Origin) (entries : List (String × Node))

end

namespace Table

def origin : Table → Origin
  | mk o _ => o

def entries : Table → List (String × Node)
  | mk _ es => es

def empty (origin : Origin) : Table :=
  mk origin []

def find? (t : Table) (key : String) : Option Node :=
  t.entries.lookup key

/-- The table with a key set to a node, in place where the key is there already. -/
def set (t : Table) (key : String) (node : Node) : Table :=
  let replaced := t.entries.map fun (k, n) => if k = key then (k, node) else (k, n)
  mk t.origin (if (t.find? key).isSome then replaced else t.entries ++ [(key, node)])

/-- Changes the table at the end of a path. Tables on the way that are missing are made with the
given origin. A dotted path does not go through tables that have a header. -/
def change (step : Origin) (f : Table → Option Table) : List String → Table → Option Table
  | [], t => f t
  | key :: path, t =>
    match t.find? key with
    | none => do
      let inner ← change step f path (empty step)
      return t.set key (.table inner)
    | some (.value _) => none
    | some (.table inner) =>
      if step = .dotted ∧ inner.origin = .header then none
      else do
        let inner ← change step f path inner
        return t.set key (.table inner)
    | some (.tables last earlier) => do
      let last ← change step f path last
      return t.set key (.tables last earlier)

/-- Gives a new key a value. -/
def insertNew (key : String) (v : Value) (t : Table) : Option Table :=
  if (t.find? key).isSome then none else some (t.set key (.value v))

/-- `a.b.key = value` inside a table. -/
def insertDotted (path : List String) (key : String) (v : Value) (t : Table) : Option Table :=
  t.change .dotted
    (fun inner => if path = [] ∨ inner.origin = .dotted then insertNew key v inner else none) path

/-- `[a.b.key]`: opens a table that was at most named on the way to another. -/
def openTable (path : List String) (key : String) (t : Table) : Option Table :=
  t.change .path
    (fun parent =>
      match parent.find? key with
      | none => some (parent.set key (.table (empty .header)))
      | some (.table inner) =>
        if inner.origin = .path then some (parent.set key (.table (mk .header inner.entries)))
        else none
      | some _ => none) path

/-- `[[a.b.key]]`: opens one more table of an array. -/
def openArrayTable (path : List String) (key : String) (t : Table) : Option Table :=
  t.change .path
    (fun parent =>
      match parent.find? key with
      | none => some (parent.set key (.tables (empty .header) []))
      | some (.tables last earlier) =>
        some (parent.set key (.tables (empty .header) (last :: earlier)))
      | some _ => none) path

end Table

end WebIdl.Toml
