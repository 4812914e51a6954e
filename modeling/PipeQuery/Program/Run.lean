import PipeQuery.Grammar.FirstFollow
import PipeQuery.Parser.Source
import PipeQuery.Program.Arguments
import PipeQuery.Program.Host
import PipeQuery.Settings.File
import PipeQuery.Text.Caret

/-!
# The program

A run reads the command line and the settings, then does what it is asked to: show a query or its
tokens, list the grammar, or show or write settings.

## Main definitions

* `Outcome`: what a run prints, and its exit status
* `RunError`: why a run ends without doing what it is asked to
* `showQuery`, `showTokens`, `ruleListing`: what is printed of queries and of the grammar
* `run`: a run of the program
-/

namespace PipeQuery

/-- The version of the program. -/
def version : String := "0.1.0"

/-- What a run prints, and its exit status. -/
structure Outcome where
  status : Nat
  output : String
  errors : String
deriving DecidableEq

/-- Why a run ends without doing what it is asked to. -/
inductive RunError where
  | unreadableSettings (path : String) (e : FileError)
  | faultyFile (fault : Settings.FileFault)
  | faultySettings (fault : Settings.Fault)
  | unwritableSettings (e : FileError)
  | settingsPresent (path : String)
  | unreadableQuery (path : String) (e : FileError)
  | unreadableInput (e : FileError)
  | noQuery
  | emptyQuery
deriving DecidableEq

namespace RunError

/-- What is said of a fault of the configuration. -/
def configuration (what : String) : String := "Configuration error: " ++ what

/-- What is said of a fault of the input. -/
def input (what : String) : String := "Input error: " ++ what

/-- The wording of an error. -/
def message : RunError → String
  | unreadableSettings path e =>
    configuration ("Failed to read config file " ++ path ++ ": " ++ e.message)
  | faultyFile fault => configuration fault.message
  | faultySettings fault => configuration fault.message
  | unwritableSettings e => configuration ("Failed to write config file: " ++ e.message)
  | settingsPresent path =>
    "Config file already exists: " ++ path ++ ". Use --force to overwrite."
  | unreadableQuery path e => "Failed to read query file " ++ path ++ ": " ++ e.message
  | unreadableInput e => "Failed to read query from stdin: " ++ e.message
  | noQuery => input "no query given (pass QUERY, --file or pipe the query on stdin)"
  | emptyQuery => input "empty query"

end RunError

/-! ## What is printed -/

/-- The text with a line end behind it, unless it has one. -/
def endLine (s : String) : String := if s.endsWith "\n" then s else s ++ "\n"

/-- A message about a place of a source, and a caret at the place. -/
def complaint (source message : String) (place : Option (Nat × Nat)) : Outcome :=
  let pointer := (place.bind fun (line, column) => caret? source line column).map (· ++ "\n")
  ⟨1, "", message ++ "\n" ++ pointer.getD ""⟩

/-- What is said of a source that cannot be split into tokens. -/
def lexicalComplaint (source : String) (e : Lexer.Error) : Outcome :=
  complaint source e.message (some (e.position.line, e.position.column))

/-- What is said of a source that has no tree. -/
def syntacticComplaint (source : String) (f : Failure) : Outcome :=
  complaint source f.display (f.error?.map fun e => (e.token.span.line, e.token.span.column))

/-- What is printed of a tree. Its errors are printed beside it, unless they are what is asked
for. -/
def showTree (settings : Settings) (quiet : Bool) (t : ParseTree) : Outcome where
  status := if t.diagnostics.isEmpty then 0 else 1
  output := if quiet then "" else endLine (t.render settings.format settings.pretty)
  errors := if settings.format = .diagnostics then "" else errorLines t.diagnostics

/-- What is printed of a source. -/
def showQuery (settings : Settings) (quiet : Bool) (entry : Entry) (source : String) :
    Except RunError Outcome :=
  match parseSource settings.parser entry source with
  | .ok t => .ok (showTree settings quiet t)
  | .error (.lexical e) => .ok (lexicalComplaint source e)
  | .error (.syntactic .emptyInput) => .error .emptyQuery
  | .error (.syntactic f) => .ok (syntacticComplaint source f)

/-- What is printed of the tokens of a source. -/
def showTokens (quiet : Bool) (entry : Entry) (source : String) : Outcome :=
  match tokenizeIn entry.mode source with
  | .ok tokens => ⟨0, if quiet then "" else tokenLines tokens, ""⟩
  | .error e => lexicalComplaint source e

/-- The line about a rule: its name, filled up to 22 columns, and its sets. -/
def ruleLine (r : Rule) : String :=
  r.name ++ "".pushn ' ' (22 - r.name.length) ++ " first=" ++ r.first.display ++ " follow=" ++
    r.follow.display ++ (if r.isLeftRecursive then " (left-recursive)" else "") ++ "\n"

/-- The grammar, one rule on a line. -/
def ruleListing : String := String.join (Rule.all.map ruleLine)

/-- How the program is used. -/
def usage : String :=
  "Usage: pipeql [OPTIONS] [QUERY] [COMMAND]\n\n" ++
    "Commands:\n" ++
    "  tokens  Print the tokens of a query\n" ++
    "  rules   List the grammar rules with their FIRST and FOLLOW sets\n" ++
    "  config  Show the effective configuration or write a default one\n\n" ++
    "Options:\n" ++
    "  -f, --file FILE    File containing the query\n" ++
    "      --format FMT   tree, json, tokens or diagnostics\n" ++
    "  -c, --compact      Use compact output\n" ++
    "  -e, --expression   Parse a standalone expression\n" ++
    "      --max-depth N  Maximum rule nesting depth\n" ++
    "      --bail         Stop at the first syntax error\n" ++
    "      --config FILE  Configuration file\n" ++
    "  -v, --verbose      Increase verbosity\n" ++
    "  -q, --quiet        Suppress all non-error output\n" ++
    "  -h, --help         Print help\n" ++
    "  -V, --version      Print version\n"

/-- What is printed instead of a run whose command line cannot be read. -/
def UsageError.outcome (e : UsageError) : Outcome :=
  match e with
  | help => ⟨0, usage, ""⟩
  | version => ⟨0, "pipeql " ++ PipeQuery.version ++ "\n", ""⟩
  | e => ⟨2, "", "error: " ++ e.message ++ "\n\n" ++ usage⟩

/-! ## The run -/

section Run

variable {m : Type → Type} [Monad m] (host : Host m)

/-- What `action` gives, its error turned into one of the run. -/
def attempt {ε α : Type} (error : ε → RunError) (action : m (Except ε α)) : ExceptT RunError m α :=
  do
    match ← action with
    | .ok a => return a
    | .error e => throw (error e)

/-- The first of some paths at which there is a file. -/
def firstFile? : List String → m (Option String)
  | [] => return none
  | path :: paths => do
    if ← host.isFile path then return some path else firstFile? paths

/-- The user's home. -/
def homeDirectory? (env : String → Option String) : Option String :=
  (env "HOME").filter (!·.isEmpty)

/-- The directory of the user's configuration: the one that is named by an absolute path, or else
the usual one in the user's home. -/
def configurationDirectory? (env : String → Option String) : Option String :=
  ((env "XDG_CONFIG_HOME").filter (·.startsWith "/")).or
    ((homeDirectory? env).map fun home => Path.join home ".config")

/-- The settings of the file at a path. -/
def readSettings (path : String) : ExceptT RunError m Settings := do
  let text ← attempt (.unreadableSettings path) (host.load path)
  match Settings.ofFile path text with
  | .ok settings => return settings
  | .error fault => throw (.faultyFile fault)

/-- The settings of a run. -/
def loadSettings (args : Arguments) : ExceptT RunError m Settings := do
  let env ← host.environment
  let path? ←
    match args.config with
    | some path => pure (some path)
    | none => do
      let places := Settings.searchPath (← host.workingDirectory)
        (configurationDirectory? env) (homeDirectory? env)
      (firstFile? host places : m (Option String))
  let settings ←
    match path? with
    | some path => readSettings host path
    | none => pure Settings.standard
  -- What comes later overrides what comes before.
  let settings := (settings.withEnvironment env).override args.overrides
  match settings.fault? with
  | some fault => throw (.faultySettings fault)
  | none => return settings

/-- The query of a run: an argument, the text of a file, or the standard input. -/
def readQuery (query file : Option String) : ExceptT RunError m String :=
  match query, file with
  | some query, _ => return query
  | none, some path => attempt (.unreadableQuery path) (host.load path)
  | none, none => do
    match ← attempt .unreadableInput host.input with
    | some source => return source
    | none => throw .noQuery

/-- Write a settings file, unless there is something at its path that is to be kept. -/
def writeSettings (path : String) (force : Bool) : ExceptT RunError m Outcome := do
  -- Whatever is there is kept, be it a file or not.
  if !force && (← host.isPresent path) then throw (.settingsPresent path)
  attempt .unwritableSettings (host.store path Settings.standard.toText)
  return ⟨0, "Created config file: " ++ path ++ "\n", ""⟩

/-- What a source is taken for on the command line. -/
def entryOf (expression : Bool) : Entry := if expression then .expression 0 else .statement

/-- A run with arguments that could be read. -/
def runWith (args : Arguments) : ExceptT RunError m Outcome := do
  let settings ← loadSettings host args
  match args.command with
  | some (.tokens query file expression) =>
    return showTokens args.quiet (entryOf expression) (← readQuery host query file)
  | some .rules => return ⟨0, ruleListing, ""⟩
  | some .showConfig => return ⟨0, settings.toText, ""⟩
  | some (.initConfig path force) => writeSettings host path force
  | none => do
    let source ← readQuery host args.query args.file
    ExceptT.mk (pure (showQuery settings args.quiet (entryOf args.expression) source))

/-- A run of the program. The version is printed wherever it is asked for. -/
def run (args : List String) : m Outcome := do
  if args.any fun arg => arg = "--version" || arg = "-V" then
    return UsageError.version.outcome
  match Arguments.ofList args with
  | .error e => return e.outcome
  | .ok args =>
    match ← (runWith host args).run with
    | .ok outcome => return outcome
    | .error e => return ⟨1, "", "Error: " ++ e.message ++ "\n"⟩

end Run

end PipeQuery
