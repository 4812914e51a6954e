import PipeQuery.Number.Numeral
import PipeQuery.Settings.Basic
import PipeQuery.Text.Similarity

/-!
# The command line

The program takes a query, options and commands with options of their own. Arguments are read from
left to right. An option that takes a value takes what is attached to it, or else the next argument;
what is given is looked at when the next option or plain argument is met.

## Main definitions

* `Arguments`: what the command line says
* `UsageError`: why a command line cannot be read
* `CommandLine.Level`: the program and its commands, each with its options
* `CommandLine.read`: what is given at each level
* `Arguments.ofList`: what a command line says
-/

namespace PipeQuery

/-- A command and what it is given. -/
inductive Subcommand where
  | tokens (query file : Option String) (expression : Bool)
  | rules
  | showConfig
  | initConfig (path : String) (force : Bool)
deriving DecidableEq

/-- What a command line says. -/
structure Arguments where
  query : Option String
  file : Option String
  expression : Bool
  overrides : Overrides
  config : Option String
  quiet : Bool
  command : Option Subcommand
deriving DecidableEq

/-- Why a command line cannot be read. The last two ask for something else than a run. -/
inductive UsageError where
  | unknownArgument
  | invalidValue
  /-- A number that cannot be read. -/
  | malformedValue
  /-- Arguments that exclude each other, or one that is given twice. -/
  | conflict
  | tooManyValues
  | unknownCommand
  | missingCommand
  | help
  | version
deriving DecidableEq

/-- The wording of an error. -/
def UsageError.message : UsageError → String
  | unknownArgument => "unexpected argument"
  | invalidValue => "missing or invalid value"
  | malformedValue => "malformed value"
  | conflict => "arguments that cannot be used together"
  | tooManyValues => "unexpected value"
  | unknownCommand => "unrecognized subcommand"
  | missingCommand => "missing subcommand"
  | help => "help requested"
  | version => "version requested"

namespace CommandLine

/-- What an argument can give. -/
inductive Parameter where
  | query
  | file
  | format
  | compact
  | expression
  | maxDepth
  | bail
  | config
  | verbose
  | quiet
  | path
  | force
  | help
  | version
deriving DecidableEq

namespace Parameter

/-- Whether an option for the parameter takes a value. -/
def takesValue : Parameter → Bool
  | query | file | format | maxDepth | config | path => true
  | _ => false

/-- What is wrong with a value. -/
def fault? (p : Parameter) (value : String) : Option UsageError :=
  match p with
  | file | config | path => if value.isEmpty then some .invalidValue else none
  | format => if (Format.ofName? value).isNone then some .invalidValue else none
  | maxDepth => if (readNatural? (Nat.pow 2 64) value.toList).isNone then some .malformedValue else none
  | _ => none

end Parameter

/-- An option: its letter, its word and what it gives. -/
structure Switch where
  letter : Option Char
  word : String
  parameter : Parameter

/-- The program, and the commands below it. -/
inductive Level where
  | program
  | tokens
  | rules
  | config
  | showConfig
  | initConfig
deriving DecidableEq

namespace Level

/-- The options of a command. -/
def switches : Level → List Switch
  | program =>
    [⟨some 'f', "file", .file⟩, ⟨none, "format", .format⟩, ⟨some 'c', "compact", .compact⟩,
      ⟨some 'e', "expression", .expression⟩, ⟨none, "max-depth", .maxDepth⟩, ⟨none, "bail", .bail⟩,
      ⟨none, "config", .config⟩, ⟨some 'v', "verbose", .verbose⟩, ⟨some 'q', "quiet", .quiet⟩,
      ⟨some 'h', "help", .help⟩, ⟨some 'V', "version", .version⟩]
  | tokens =>
    [⟨some 'f', "file", .file⟩, ⟨some 'e', "expression", .expression⟩, ⟨some 'h', "help", .help⟩]
  | initConfig => [⟨none, "force", .force⟩, ⟨some 'h', "help", .help⟩]
  | rules | config | showConfig => [⟨some 'h', "help", .help⟩]

/-- What a plain argument of a command gives. -/
def plain? : Level → Option Parameter
  | program | tokens => some .query
  | initConfig => some .path
  | rules | config | showConfig => none

/-- The commands below a command, by name. -/
def commands : Level → List (String × Level)
  | program => [("tokens", tokens), ("rules", rules), ("config", config)]
  | config => [("show", showConfig), ("init", initConfig)]
  | _ => []

/-- The names that mean something as commands. Where there are commands, help on them is one
more. -/
def commandNames (l : Level) : List String :=
  if l.commands.isEmpty then [] else l.commands.map (·.1) ++ ["help"]

/-- What help on a row of commands comes to. -/
def helpOn : Level → List String → UsageError
  | _, [] => .help
  | l, name :: names =>
    match l.commands.lookup name with
    | some below => helpOn below names
    | none => if name ∈ l.commandNames ∧ names = [] then .help else .unknownCommand

end Level

/-- What has been read of the arguments of a command. -/
structure Progress where
  /-- What was given, in order. -/
  given : List (Parameter × String)
  /-- What is given last: an option whose value is still to come, or anything with its value. -/
  pending : Option (Parameter × Option String)
  /-- Whether all that follows is plain. -/
  plainOnly : Bool
  /-- Whether a plain argument was met. -/
  hasPlain : Bool

namespace Progress

/-- Nothing read. -/
def start : Progress := ⟨[], none, false, false⟩

/-- Whether a parameter was given. -/
def has (s : Progress) (p : Parameter) : Bool := s.given.any (·.1 = p)

/-- Take a value for a parameter. Only a parameter that is counted can be given twice. -/
def accept (s : Progress) (p : Parameter) (value : String) : Except UsageError Progress :=
  if s.has p && p ≠ .verbose then .error .conflict
  else
    match p.fault? value with
    | some e => .error e
    | none => .ok { s with given := s.given ++ [(p, value)] }

/-- Look at what was given last. -/
def settle (s : Progress) : Except UsageError Progress :=
  match s.pending with
  | none => .ok s
  | some (_, none) => .error .invalidValue
  | some (p, some value) => accept { s with pending := none } p value

/-- Take an option without a value. -/
def acceptFlag (s : Progress) (p : Parameter) : Except UsageError Progress := do
  let s ← s.settle
  match p with
  | .help => throw .help
  | .version => throw .version
  | p => s.accept p ""

/-- Take an option with the value attached to it, if there is one. -/
def acceptOption (s : Progress) (p : Parameter) (attached : Option String) :
    Except UsageError Progress := do
  let s ← s.settle
  match attached with
  | some value => s.accept p value
  | none => return { s with pending := some (p, none) }

/-- Whether an option waits for its value. -/
def isWaiting (s : Progress) : Bool :=
  match s.pending with
  | some (_, none) => true
  | _ => false

end Progress

/-- Read the letters of options behind one dash. -/
def readLetters (l : Level) : List Char → Progress → Except UsageError Progress
  | [], s => .ok s
  | c :: cs, s =>
    match l.switches.find? (·.letter = some c) with
    | none => .error .unknownArgument
    | some switch =>
      if switch.parameter.takesValue then
        -- The letters behind it are its value.
        match cs with
        | [] => s.acceptOption switch.parameter none
        | '=' :: value => s.acceptOption switch.parameter (some (String.ofList value))
        | value => s.acceptOption switch.parameter (some (String.ofList value))
      else (s.acceptFlag switch.parameter).bind (readLetters l cs)

/-- Read the word of an option behind two dashes. -/
def readWord (l : Level) (cs : List Char) (s : Progress) : Except UsageError Progress :=
  let (word, rest) := cs.span (· ≠ '=')
  let attached := rest.tail?.map String.ofList
  match l.switches.find? (·.word = String.ofList word) with
  | none => .error .unknownArgument
  | some switch =>
    if switch.parameter.takesValue then s.acceptOption switch.parameter attached
    else if attached.isSome then .error .tooManyValues
    else s.acceptFlag switch.parameter

/-- What is wrong with a plain argument that there is no place for. A word that looks like a command
is taken for one. -/
def extraFault (l : Level) (s : Progress) (arg : String) : UsageError :=
  if s.plainOnly && l.commandNames.contains arg then .unknownArgument
  else if l.commandNames.any fun name => similarity arg name > 0.7 then .unknownCommand
  else if !l.commands.isEmpty && l.plain?.isNone then .unknownCommand
  else .unknownArgument

/-- Read a plain argument. -/
def readPlain (l : Level) (arg : String) (s : Progress) : Except UsageError Progress :=
  match l.plain? with
  | some p =>
    if s.hasPlain then .error (extraFault l s arg)
    else s.settle.map fun s => { s with pending := some (p, some arg), hasPlain := true }
  | none => .error (extraFault l s arg)

/-- Read an argument that is no command. -/
def readArgument (l : Level) (arg : String) (s : Progress) : Except UsageError Progress :=
  if s.plainOnly then readPlain l arg s
  else
    match arg.toList with
    | ['-', '-'] => .ok { s with plainOnly := true }
    | '-' :: '-' :: cs => readWord l cs s
    | '-' :: c :: cs => readLetters l (c :: cs) s
    | _ =>
      match s.pending with
      -- An option that waits takes any argument that does not look like an option.
      | some (p, none) => .ok { s with pending := some (p, some arg) }
      | _ => readPlain l arg s

/-- What is given at a level, when all arguments of it are read. -/
def conclude (s : Progress) : Except UsageError (List (Parameter × String)) := do
  let s ← s.settle
  if s.has .query && s.has .file then throw .conflict
  return s.given

/-- What is given at a level and at those below it. -/
def read (l : Level) (s : Progress) :
    List String → Except UsageError (List (Level × List (Parameter × String)))
  | [] => do
    if l = .config then
      let _ ← s.settle
      throw .missingCommand
    return [(l, ← conclude s)]
  | arg :: args =>
    if !s.plainOnly && !s.isWaiting && l.commandNames.contains arg then
      match l.commands.lookup arg with
      | some below => do
        -- The command is read first, so that its faults come before those of the program.
        let levels ← read below .start args
        return (l, ← conclude s) :: levels
      | none => .error (l.helpOn args)
    else (readArgument l arg s).bind fun s => read l s args

/-- The value given for a parameter. -/
def value? (given : List (Parameter × String)) (p : Parameter) : Option String := given.lookup p

/-- Whether a parameter was given. -/
def isGiven (given : List (Parameter × String)) (p : Parameter) : Bool := (value? given p).isSome

/-- The command that the innermost level stands for. -/
def subcommand? (l : Level) (given : List (Parameter × String)) : Option Subcommand :=
  match l with
  | .program | .config => none
  | .tokens =>
    some (.tokens (value? given .query) (value? given .file) (isGiven given .expression))
  | .rules => some .rules
  | .showConfig => some .showConfig
  | .initConfig =>
    some (.initConfig ((value? given .path).getD "pipeql.toml") (isGiven given .force))

/-- What the options of the program say of settings. -/
def overridesOf (given : List (Parameter × String)) : Overrides where
  maxDepth := (value? given .maxDepth).bind fun v => readNatural? (Nat.pow 2 64) v.toList
  bail := isGiven given .bail
  format := (value? given .format).bind Format.ofName?
  compact := isGiven given .compact
  verbose := min 255 (given.countP (·.1 = .verbose))

end CommandLine

open CommandLine in
/-- What a command line says. -/
def Arguments.ofList (args : List String) : Except UsageError Arguments := do
  let levels ← read .program .start args
  let given := ((levels.head?).map (·.2)).getD []
  return {
    query := value? given .query
    file := value? given .file
    expression := isGiven given .expression
    overrides := overridesOf given
    config := value? given .config
    quiet := isGiven given .quiet
    command := levels.getLast?.bind fun (l, given) => subcommand? l given }

end PipeQuery
