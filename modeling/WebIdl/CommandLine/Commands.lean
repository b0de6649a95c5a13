import WebIdl.CommandLine.Arguments
import WebIdl.CommandLine.Host
import WebIdl.CommandLine.Style
import WebIdl.ConfigFile
import WebIdl.Fragment
import WebIdl.Json.Tree
import WebIdl.Text.Words

/-!
# Commands

What each command does, over any host. A command writes to standard output and standard error
and may fail with a chain of messages, the cause of each behind it.
-/

namespace WebIdl.CommandLine

open Text

structure Output where
  out : String := ""
  err : String := ""
deriving DecidableEq, Repr

/-- The messages of a failure, outermost first. -/
structure Failure where
  message : String
  causes : List String := []
deriving DecidableEq, Repr

abbrev Session (m : Type → Type) := ExceptT Failure (StateT Output m)

variable {m : Type → Type} [Monad m]

def sayOut (text : String) : Session m Unit :=
  modify fun o => { o with out := o.out ++ text }

def sayErr (text : String) : Session m Unit :=
  modify fun o => { o with err := o.err ++ text }

def failWith {α : Type} (message : String) (causes : List String) : Session m α :=
  throw ⟨message, causes⟩

/-- What the system answered, or a failure to do what the message says. -/
def orFail {α : Type} (message : String) (answer : Except FileFault α) : Session m α :=
  match answer with
  | .ok a => return a
  | .error fault => failWith message [fault.message]

/-- The result of reading the fragments, or a failure with the place of the error. -/
def orFailAt {α : Type} (answer : Except LocatedError α) : Session m α :=
  match answer with
  | .ok a => return a
  | .error e => failWith e.message [e.error.message, e.error.cause]

/-- The name of text from standard input. -/
def inputOrigin : String := "<stdin>"

def readInput (h : Host m) : Session m Fragment := do
  let text ← orFail "Failed to read standard input" ((← h.readInput).bind decode)
  return ⟨inputOrigin, text⟩

def readTextFile (h : Host m) (path : String) : Session m String := do
  orFail ("Failed to read " ++ path) ((← h.readFile path).bind decode)

def readFragment (h : Host m) (path : String) : Session m Fragment := do
  if isInput path then readInput h else return ⟨path, ← readTextFile h path⟩

/-- One fragment for each path, or standard input where there is none. -/
def readFragments (h : Host m) (paths : List String) : Session m (List Fragment) :=
  if paths.isEmpty then return [← readInput h] else paths.mapM (readFragment h)

/-- The configuration file that is used where none is named. -/
def defaultConfigFile : String := "idl-index.toml"

def readLayer (h : Host m) (path : String) : Session m ConfigLayer := do
  let text ← readTextFile h path
  match ConfigLayer.ofText? text with
  | some layer => return layer
  | none => failWith ("Failed to parse " ++ path) ["TOML parse error"]

/-- The standard settings under those of the file. The default file may be missing. -/
def loadConfig (h : Host m) (path? : Option String) : Session m Config := do
  match path? with
  | some path => return Config.override {} (← readLayer h path)
  | none =>
    if ← h.pathExists defaultConfigFile then
      return Config.override {} (← readLayer h defaultConfigFile)
    else
      return {}

/-- Host, colours and settings of a run. -/
structure Setting (m : Type → Type) where
  host : Host m
  colours : Bool
  config : Config

namespace Setting

def paint (s : Setting m) (style : Style) (text : String) : String :=
  style.paint s.colours text

def warn (s : Setting m) (warnings : List MergeWarning) : Session m Unit :=
  warnings.forM fun w => sayErr (s.paint .boldYellow "Warning:" ++ " " ++ w.message ++ "\n")

def readCombined {α : Type} (s : Setting m) (fragments : List Fragment)
    (read : String → Except Error α) : Session m α :=
  orFailAt (Fragment.readCombined s.config.separator fragments read)

/-- The index with a line feed at its end, unless it is empty. -/
def endLine (text : String) : String :=
  if text.isEmpty || text.endsWith "\n" then text else text ++ "\n"

/-- Shows the index, or writes it to a file. -/
def showIndex (s : Setting m) (count : Nat) (index : String) : Option String → Session m Unit
  | none => sayOut index
  | some path => do
    orFail ("Failed to write " ++ path) (← s.host.writeFile path index)
    sayErr (s.paint .boldGreen "✓" ++ " Wrote IDL index for " ++ toString count ++
      " fragment(s) to " ++ path ++ "\n")

def renderCommand (s : Setting m) (files : List String) (output : Option String)
    (raw noMerge : Bool) : Session m Unit := do
  let fragments ← readFragments s.host files
  let standard := s.config.renderOptions
  let options : RenderOptions :=
    { standard with
      pretty := standard.pretty && !raw
      mergePartials := standard.mergePartials && !noMerge }
  let rendered ← s.readCombined fragments (WebIdl.render options)
  s.warn rendered.warnings
  s.showIndex fragments.length (endLine rendered.text) output

def parseCommand (s : Setting m) (files : List String) (merged : Bool) : Session m Unit := do
  let fragments ← readFragments s.host files
  let program ← s.readCombined fragments (parseText s.config.dialect)
  let result : Merged :=
    if merged then mergePartials program.definitions else { definitions := program.definitions }
  s.warn result.warnings
  sayOut ((definitionsToJson result.definitions).render ++ "\n")

/-- The colour of the keyword of a definition. -/
def keywordStyle : DefinitionKind → Style
  | .interface _ | .class _ | .callbackInterface _ => .blue
  | .dictionary _ => .magenta
  | .enum _ => .yellow
  | _ => .plain

/-- The line that a check shows for a definition. -/
def describe (s : Setting m) (d : Definition) : String :=
  let mark := if d.isPartial then s.paint .dimmed "partial" ++ " " else ""
  let base := match d.inheritance? with
    | some base => " : " ++ base
    | none => ""
  let members := match d.members? with
    | some ms => s.paint .dimmed (" (" ++ toString ms.length ++ " members)")
    | none => ""
  mark ++ s.paint (keywordStyle d.kind) d.keyword ++ " " ++ s.paint .bold d.name ++ base ++ members

/-- How many fragments, definitions and merged partials there are. -/
def summary (s : Setting m) (fragments definitions partials : Nat) : String :=
  s.paint .cyan "→" ++ " " ++ toString fragments ++ " fragment(s), " ++ toString definitions ++
    " definition(s) after merging " ++ toString partials ++ " partial(s)\n"

def checkCommand (s : Setting m) (files : List String) (strict : Bool) : Session m Unit := do
  let fragments ← readFragments s.host files
  let program ← s.readCombined fragments (parseText s.config.dialect)
  sayOut ("\n" ++ s.paint .boldUnderlined "Definitions" ++ "\n\n")
  program.definitions.forM fun d => sayOut ("  " ++ s.describe d ++ "\n")
  let partials := program.definitions.countP Definition.isPartial
  let merged := mergePartials program.definitions
  s.warn merged.warnings
  let dropped := merged.warnings.length
  sayOut ("\n" ++ s.summary fragments.length merged.definitions.length (partials - dropped))
  if strict && dropped ≠ 0 then
    failWith (toString dropped ++ " partial definition(s) could not be merged") []
  else
    sayOut (s.paint .boldGreen "✓" ++ " " ++ s.paint .green "All fragments are valid" ++ "\n")

def kindStyle : TokenKind → Style
  | .whitespace => .dimmed
  | .identifier => .cyan
  | .string | .integer | .float => .green
  | .other => .plain

/-- A line for each token: its line, its kind and its text in quotes. -/
def tokenLines (s : Setting m) (line : Nat) : List Token → List String
  | [] => []
  | t :: ts =>
    let number := String.ofList (padStart 4 (toString line).toList)
    let kind := String.ofList (padEnd 10 t.kind.name.toList)
    (number ++ "  " ++ s.paint (kindStyle t.kind) kind ++ "  " ++ quote t.text ++ "\n") ::
      tokenLines s (line + t.newlines) ts

def tokensCommand (s : Setting m) (file : String) : Session m Unit := do
  let fragment ← readFragment s.host file
  match tokenize fragment.text with
  | .error e => failWith ("Failed to tokenize " ++ fragment.origin) [e.message]
  | .ok tokens =>
    sayOut (String.join (s.tokenLines 1 tokens))
    sayOut ("\n" ++ s.paint .cyan "→" ++ " " ++ toString tokens.length ++ " token(s)\n")

def run (s : Setting m) : Command → Session m Unit
  | .render files output raw noMerge => s.renderCommand files output raw noMerge
  | .parse files merged => s.parseCommand files merged
  | .check files strict => s.checkCommand files strict
  | .tokens file => s.tokensCommand file

end Setting

/-- How a run ended. -/
structure Outcome where
  code : Nat
  out : String
  err : String
deriving DecidableEq, Repr

/-- A failure and its causes, each on a line of its own. -/
def failureText (colours : Bool) (context : String) (f : Failure) : String :=
  let cause (c : String) : String :=
    "  " ++ Style.dimmed.paint colours "Caused by:" ++ " " ++ Style.dimmed.paint colours c ++ "\n"
  Style.boldRed.paint colours "Error:" ++ " " ++ context ++ "\n  " ++
    Style.red.paint colours f.message ++ "\n" ++ String.join (f.causes.map cause)

def configSuggestion (colours : Bool) : String :=
  "\n" ++ Style.boldCyan.paint colours "Suggestion:" ++
    " Check the syntax of idl-index.toml or pass another file with --config\n"

/-- The settings of a command line: those of the file under those of the switches. -/
def configure (h : Host m) (i : Invocation) : Session m Config := do
  return (← loadConfig h i.configFile).override i.overrides

/-- Runs a command. What it wrote before it failed stays written. -/
def Invocation.run (h : Host m) (colours : Bool) (i : Invocation) : m Outcome := do
  match ← (configure h i).run.run {} with
  | (.error f, o) =>
    let text := failureText colours "Failed to load configuration" f ++ configSuggestion colours
    return ⟨1, o.out, o.err ++ text⟩
  | (.ok config, o) =>
    let setting : Setting m := ⟨h, colours, config⟩
    match ← (setting.run i.command).run.run o with
    | (.error f, o) => return ⟨1, o.out, o.err ++ failureText colours "Command failed" f⟩
    | (.ok (), o) => return ⟨0, o.out, o.err⟩

def versionText : String := "idl-index 0.1.0\n"

def usageText : String :=
  "Usage: idl-index [OPTIONS] <COMMAND>\n\nCommands: render, parse, check, tokens, help\n"

/-- What is shown where no command is run. -/
def Refusal.outcome : Refusal → Outcome
  | .version => ⟨0, versionText, ""⟩
  | .help => ⟨0, usageText, ""⟩
  | .usage => ⟨2, "", usageText⟩

/-- Runs a command line. -/
def runArguments (h : Host m) (colours : Bool) (args : List String) : m Outcome :=
  match Invocation.ofArguments args with
  | .ok i => i.run h colours
  | .error refusal => return refusal.outcome

end WebIdl.CommandLine
