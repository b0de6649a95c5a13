/-!
# Hosts

What a command needs from the system that it runs on: files and standard input. Commands are
written over any host, so that they run on a real system and in memory alike.
-/

namespace WebIdl.CommandLine

/-- Why a file could not be used. -/
inductive FileFault where
  /-- The system refused, with its own description and number. -/
  | system (description : String) (number : Nat)
  /-- The contents are not UTF-8. -/
  | notText
deriving DecidableEq, Repr

namespace FileFault

def notFound : FileFault := system "No such file or directory" 2
def notDirectory : FileFault := system "Not a directory" 20
def isDirectory : FileFault := system "Is a directory" 21
def nameTooLong : FileFault := system "File name too long" 36

def message : FileFault → String
  | system description number => description ++ " (os error " ++ toString number ++ ")"
  | notText => "stream did not contain valid UTF-8"

end FileFault

structure Host (m : Type → Type) where
  /-- Whether anything stands at a path. -/
  pathExists : String → m Bool
  readFile : String → m (Except FileFault ByteArray)
  /-- Replaces a file. -/
  writeFile : String → String → m (Except FileFault Unit)
  /-- All that is left of standard input. -/
  readInput : m (Except FileFault ByteArray)

/-- Contents as text. -/
def decode (bytes : ByteArray) : Except FileFault String :=
  match String.fromUTF8? bytes with
  | some text => .ok text
  | none => .error .notText

/-- The longest path that a system takes, and the longest name in one, in bytes. -/
def maxPathSize : Nat := 4095

def maxNameSize : Nat := 255

/-- The names of a path, without the slashes between them. -/
def pathNames (path : String) : List String :=
  (path.splitOn "/").filter (· != "")

/-- Whether a path stands for standard input: a lone minus, which dots behind it leave as it
is. -/
def isInput (path : String) : Bool :=
  !path.startsWith "/" &&
    match pathNames path with
    | "-" :: dots => dots.all (· == ".")
    | _ => false

end WebIdl.CommandLine
