import WebIdl.Config

/-!
# Command-line arguments

Global options may stand in front of the command and behind it. An option may be given once in
each of the two places, except for `--verbose`; behind the command it wins over one in front.
-/

namespace WebIdl.CommandLine

inductive Switch where
  | config
  | verbose
  | allowClass
  | allowExtends
  | nestedTypedefs
  | keepComments
  | output
  | raw
  | noMerge
  | merged
  | strict
  | help
  | version
deriving DecidableEq, Repr

namespace Switch

def long : Switch → String
  | config => "config"
  | verbose => "verbose"
  | allowClass => "allow-class"
  | allowExtends => "allow-extends"
  | nestedTypedefs => "nested-typedefs"
  | keepComments => "keep-comments"
  | output => "output"
  | raw => "raw"
  | noMerge => "no-merge"
  | merged => "merged"
  | strict => "strict"
  | help => "help"
  | version => "version"

def short? : Switch → Option Char
  | config => some 'c'
  | verbose => some 'v'
  | output => some 'o'
  | merged => some 'm'
  | help => some 'h'
  | version => some 'V'
  | _ => none

def takesValue : Switch → Bool
  | config | output => true
  | _ => false

/-- The switches that belong to every place on the command line. -/
def globals : List Switch :=
  [config, verbose, allowClass, allowExtends, nestedTypedefs, keepComments, help]

end Switch

inductive CommandName where
  | render
  | parse
  | check
  | tokens
deriving DecidableEq, Repr

namespace CommandName

def ofString? : String → Option CommandName
  | "render" | "build" => some render
  | "parse" => some parse
  | "check" | "validate" => some check
  | "tokens" => some tokens
  | _ => none

def switches : CommandName → List Switch
  | render => [.output, .raw, .noMerge]
  | parse => [.merged]
  | check => [.strict]
  | tokens => []

/-- Whether a command takes one more operand behind so many. -/
def takesOperand : CommandName → Nat → Bool
  | tokens, n => n = 0
  | _, _ => true

end CommandName

/-- Why no command is run. -/
inductive Refusal where
  | usage
  | help
  | version
deriving DecidableEq, Repr

/-- What was given in one place: switches with their values, and operands. -/
structure Given where
  switches : List (Switch × String) := []
  operands : List String := []
deriving DecidableEq, Repr

namespace Given

def has (g : Given) (s : Switch) : Bool :=
  g.switches.any (·.1 == s)

def value? (g : Given) (s : Switch) : Option String :=
  g.switches.lookup s

/-- Takes in a switch, which is refused where it was given before. -/
def addSwitch (g : Given) (s : Switch) (value : String) : Except Refusal Given :=
  match s with
  | .help => .error .help
  | .version => .error .version
  | .verbose => .ok g
  | _ =>
    if g.has s || (s.takesValue && value.isEmpty) then .error .usage
    else .ok { g with switches := g.switches ++ [(s, value)] }

def addOperand (g : Given) (operand : String) : Except Refusal Given :=
  if operand.isEmpty then .error .usage
  else .ok { g with operands := g.operands ++ [operand] }

end Given

/-- Arguments that begin with a minus are options, but a lone minus is not. -/
def looksLikeOption (arg : String) : Bool :=
  arg.startsWith "-" && arg != "-"

/-- The name of a long option and the value behind its `=`, if there is one. -/
def splitLong (body : List Char) : String × Option String :=
  match body.span (· != '=') with
  | (name, []) => (String.ofList name, none)
  | (name, _ :: value) => (String.ofList name, some (String.ofList value))

/-- The value of a short option behind its letter, perhaps after an `=`. -/
def attachedValue : List Char → String
  | '=' :: value => String.ofList value
  | value => String.ofList value

/-- What an argument leaves to do. -/
inductive Pending where
  | nothing (g : Given)
  /-- The next argument is the value of a switch. -/
  | value (g : Given) (s : Switch)

def longOption (allowed : List Switch) (g : Given) (body : List Char) :
    Except Refusal Pending :=
  let (name, value?) := splitLong body
  match allowed.find? (·.long == name), value? with
  | none, _ => .error .usage
  | some s, none =>
    if s.takesValue then .ok (.value g s) else (g.addSwitch s "").map .nothing
  | some s, some value =>
    if s.takesValue then (g.addSwitch s value).map .nothing else .error .usage

/-- A run of short options. One that takes a value takes the rest of the run for it. -/
def shortOptions (allowed : List Switch) (g : Given) : List Char → Except Refusal Pending
  | [] => .ok (.nothing g)
  | c :: rest =>
    match allowed.find? (·.short? == some c) with
    | none => .error .usage
    | some s =>
      if s.takesValue then
        if rest.isEmpty then .ok (.value g s)
        else (g.addSwitch s (attachedValue rest)).map .nothing
      else do shortOptions allowed (← g.addSwitch s "") rest

/-- Reads one option. -/
def option (allowed : List Switch) (g : Given) (arg : String) : Except Refusal Pending :=
  match arg.toList with
  | '-' :: '-' :: body => longOption allowed g body
  | _ :: letters => shortOptions allowed g letters
  | [] => .error .usage

/-- The value that the next argument gives to a switch. -/
def takeValue (g : Given) (s : Switch) (arg : String) : Except Refusal Given :=
  if looksLikeOption arg then .error .usage else g.addSwitch s arg

/-- Reads arguments until an operand stops it. `stop` tells which operands do, by what was given
in front of them, and the rest of the arguments behind one is given back. -/
def readArguments {α : Type} (allowed : List Switch)
    (stop : Given → String → Option (Except Refusal α)) (g : Given) :
    List String → Except Refusal (Given × Option (α × List String))
  | [] => .ok (g, none)
  | arg :: rest =>
    if arg = "--" then do
      return (← rest.foldlM Given.addOperand g, none)
    else if looksLikeOption arg then do
      match ← option allowed g arg with
      | .nothing g => readArguments allowed stop g rest
      | .value g s =>
        match rest with
        | [] => .error .usage
        | value :: rest => readArguments allowed stop (← takeValue g s value) rest
    else
      match stop g arg with
      | some answer => do return (g, some (← answer, rest))
      | none => do readArguments allowed stop (← g.addOperand arg) rest

inductive Command where
  | render (files : List String) (output : Option String) (raw noMerge : Bool)
  | parse (files : List String) (merged : Bool)
  | check (files : List String) (strict : Bool)
  | tokens (file : String)
deriving DecidableEq, Repr

/-- A command to run with its configuration file and the settings that switches override. -/
structure Invocation where
  configFile : Option String
  overrides : ConfigLayer
  command : Command
deriving DecidableEq, Repr

/-- The command that a name and what is given behind it ask for. -/
def Command.ofGiven (name : CommandName) (g : Given) : Except Refusal Command :=
  match name, g.operands with
  | .render, files =>
    .ok (.render files (g.value? .output) (g.has .raw) (g.has .noMerge))
  | .parse, files => .ok (.parse files (g.has .merged))
  | .check, files => .ok (.check files (g.has .strict))
  | .tokens, [file] => .ok (.tokens file)
  | .tokens, _ => .error .usage

/-- The settings that the switches of both places turn on. -/
def overridesOf (outer inner : Given) : ConfigLayer :=
  let setting (s : Switch) : Option Bool :=
    if outer.has s || inner.has s then some true else none
  { allowClass := setting .allowClass
    allowExtends := setting .allowExtends
    allowNestedTypedefs := setting .nestedTypedefs
    keepTrivia := setting .keepComments }

/-- `help` may name one command. -/
def helpRefusal : List String → Refusal
  | [] => .help
  | [name] =>
    if (CommandName.ofString? name).isSome || name == "help" then .help else .usage
  | _ => .usage

/-- What the operand in front of all others stands for. -/
def commandStop (_ : Given) (operand : String) : Option (Except Refusal (Option CommandName)) :=
  match CommandName.ofString? operand with
  | some name => some (.ok (some name))
  | none => some (if operand == "help" then .ok none else .error .usage)

/-- An operand that a command has no place for is refused at once. -/
def CommandName.stop (name : CommandName) (g : Given) (_ : String) :
    Option (Except Refusal Unit) :=
  if name.takesOperand g.operands.length then none else some (.error .usage)

/-- Reads a whole command line. -/
def Invocation.ofArguments (args : List String) : Except Refusal Invocation := do
  let (outer, found) ← readArguments (Switch.globals ++ [.version]) commandStop {} args
  match found with
  | none => .error .usage
  | some (none, rest) => .error (helpRefusal rest)
  | some (some name, rest) =>
    let (inner, _) ← readArguments (Switch.globals ++ name.switches) name.stop {} rest
    let command ← Command.ofGiven name inner
    return {
      configFile := (inner.value? .config).or (outer.value? .config)
      overrides := overridesOf outer inner
      command }

end WebIdl.CommandLine
