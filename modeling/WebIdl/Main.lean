import WebIdl.CommandLine.Commands

/-!
# The command-line program

Runs a command on the real system.
-/

namespace WebIdl.CommandLine

/-- The description and number of an error of the system. -/
def faultOf : IO.Error → FileFault
  | .noFileOrDirectory .. => .notFound
  | .inappropriateType _ 20 _ => .notDirectory
  | .inappropriateType _ 21 _ => .isDirectory
  | .permissionDenied _ number _ => .system "Permission denied" number.toNat
  | .resourceExhausted _ number details | .inappropriateType _ number details
  | .invalidArgument _ number details | .noSuchThing _ number details
  | .alreadyExists _ number details => .system details number.toNat
  | .otherError number details | .resourceBusy number details
  | .unsupportedOperation number details | .illegalOperation number details =>
    .system details number.toNat
  | e => .system (toString e) 5

def attemptIO {α : Type} (action : IO α) : IO (Except FileFault α) := do
  match ← action.toBaseIO with
  | .ok a => return .ok a
  | .error e => return .error (faultOf e)

/-- Everything up to the end of a stream. -/
partial def readAll (stream : IO.FS.Stream) (before : ByteArray) : IO ByteArray := do
  let more ← stream.read 65536
  if more.isEmpty then return before else readAll stream (before ++ more)

def systemHost : Host IO where
  pathExists path := do
    match ← attemptIO (IO.FS.readBinFile path) with
    | .error fault => return fault != .notFound
    | .ok _ => return true
  readFile path := attemptIO (IO.FS.readBinFile path)
  writeFile path text := attemptIO (IO.FS.writeFile path text)
  readInput := attemptIO do readAll (← IO.getStdin) .empty

/-- Colours are for terminals, unless the environment says otherwise. -/
def wantsColours : IO Bool := do
  let isOn (value : String) : Bool := value != "0"
  if ((← IO.getEnv "CLICOLOR_FORCE").map isOn).getD false then return true
  else if (← IO.getEnv "NO_COLOR").isSome then return false
  else return ((← IO.getEnv "CLICOLOR").map isOn).getD true && (← (← IO.getStdout).isTty)

end WebIdl.CommandLine

def main (args : List String) : IO UInt32 := do
  let outcome ←
    WebIdl.CommandLine.runArguments WebIdl.CommandLine.systemHost
      (← WebIdl.CommandLine.wantsColours) args
  (← IO.getStdout).putStr outcome.out
  (← IO.getStdout).flush
  (← IO.getStderr).putStr outcome.err
  return outcome.code.toUInt32
