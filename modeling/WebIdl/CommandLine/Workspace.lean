import WebIdl.CommandLine.Host

/-!
# Workspaces in memory

A directory tree and standard input held in memory, as a host for commands. The working directory
is known as a whole. Of the tree around it there are the directories that every system has and the
null device.
-/

namespace WebIdl.CommandLine

/-- What the names of a place are counted from. -/
inductive Base where
  /-- The working directory. -/
  | work
  /-- A directory above the working directory. -/
  | above
  | root
deriving DecidableEq, Repr

/-- A place in the tree: a base and the names that lead on from there, none of them a dot. -/
structure Place where
  base : Base
  names : List String
deriving DecidableEq, Repr

namespace Place

/-- The directory around a place. -/
def parent (p : Place) : Place :=
  if p.names = [] then
    match p.base with
    | .root => ⟨.root, []⟩
    | .work | .above => ⟨.above, []⟩
  else
    ⟨p.base, p.names.dropLast⟩

def child (p : Place) (name : String) : Place :=
  ⟨p.base, p.names ++ [name]⟩

/-- Whether a place lies in a directory or is that directory. -/
def isIn (p directory : Place) : Bool :=
  p.base == directory.base && directory.names.isPrefixOf p.names

/-- A device that holds nothing, whatever is written to it. -/
def nullDevice : Place :=
  ⟨.root, ["dev", "null"]⟩

/-- The directories at the root of every system. -/
def systemNames : List String :=
  ["bin", "dev", "etc", "home", "lib", "opt", "proc", "root", "run", "sbin", "sys", "tmp", "usr",
    "var"]

/-- Whether a directory stands here in any case. -/
def isStandard (p : Place) : Bool :=
  match p.base, p.names with
  | _, [] => true
  | .root, [name] => systemNames.contains name
  | _, _ => false

end Place

/-- Files by their places. The directories are those that the places lie in. -/
structure Directory where
  files : List (Place × ByteArray)

namespace Directory

/-- Files of the working directory by their names. -/
def ofFiles (files : List (List String × ByteArray)) : Directory :=
  ⟨files.map fun (names, contents) => (⟨.work, names⟩, contents)⟩

/-- The files of the working directory by their names. -/
def workFiles (d : Directory) : List (List String × ByteArray) :=
  d.files.filterMap fun (p, contents) => if p.base = .work then some (p.names, contents) else none

/-- What stands at a place. -/
inductive Entry where
  | missing
  | file (contents : ByteArray)
  | directory

def at? (d : Directory) (p : Place) : Entry :=
  if p = Place.nullDevice then .file .empty
  else
    match d.files.lookup p with
    | some contents => .file contents
    | none => if p.isStandard || d.files.any (·.1.isIn p) then .directory else .missing

/-- A place that has to be a directory. -/
def enter (d : Directory) (p : Place) : Except FileFault Unit :=
  match d.at? p with
  | .missing => .error .notFound
  | .file _ => .error .notDirectory
  | .directory => .ok ()

/-- The place that lies one name further, in a directory. -/
def step (d : Directory) (p : Place) (name : String) : Except FileFault Place := do
  d.enter p
  if name = "." then return p
  else if name = ".." then return p.parent
  else if maxNameSize < name.utf8ByteSize then .error .nameTooLong
  else return p.child name

/-- The place that names lead to from where a path starts. -/
def walk (d : Directory) (path : String) (names : List String) : Except FileFault Place :=
  let start : Place := ⟨if path.startsWith "/" then .root else .work, []⟩
  if maxPathSize < path.utf8ByteSize then .error .nameTooLong else names.foldlM d.step start

/-- The place that a path leads to. A slash at its end asks for a directory. -/
def resolve (d : Directory) (path : String) : Except FileFault Place := do
  let p ← d.walk path (pathNames path)
  if path.endsWith "/" then d.enter p
  return p

def exists? (d : Directory) (path : String) : Bool :=
  match (d.resolve path).map d.at? with
  | .ok (.file _) | .ok .directory => true
  | _ => false

def read (d : Directory) (path : String) : Except FileFault ByteArray := do
  match d.at? (← d.resolve path) with
  | .missing => .error .notFound
  | .directory => .error .isDirectory
  | .file contents => .ok contents

/-- The directory with a file set, in place where it is there already. -/
def set (d : Directory) (p : Place) (contents : ByteArray) : Directory :=
  match d.at? p with
  | .file _ => ⟨d.files.map fun (q, c) => if q = p then (q, contents) else (q, c)⟩
  | _ => ⟨d.files ++ [(p, contents)]⟩

/-- The place at which a path lets a file be made: a name in a directory. A slash behind the name
is refused before the name is looked up. -/
def target (d : Directory) (path : String) : Except FileFault Place := do
  let names := pathNames path
  let parent ← d.walk path names.dropLast
  d.enter parent
  match names.getLast? with
  | none | some "." | some ".." => .error .isDirectory
  | some name => if path.endsWith "/" then .error .isDirectory else d.step parent name

/-- Writing makes a missing file, but no directory. -/
def write (d : Directory) (path : String) (contents : ByteArray) : Except FileFault Directory := do
  let p ← d.target path
  match d.at? p with
  | .directory => .error .isDirectory
  | _ => return d.set p contents

end Directory

structure Workspace where
  directory : Directory
  input : ByteArray

namespace Workspace

def host : Host (StateM Workspace) where
  pathExists path := do return (← get).directory.exists? path
  readFile path := do return (← get).directory.read path
  writeFile path text := do
    match (← get).directory.write path text.toUTF8 with
    | .ok directory =>
      modify fun w => { w with directory }
      return .ok ()
    | .error fault => return .error fault
  readInput := do
    let input := (← get).input
    modify fun w => { w with input := .empty }
    return .ok input

end Workspace

end WebIdl.CommandLine
