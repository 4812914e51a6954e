import PipeQuery.Settings.Basic
import PipeQuery.Text.Path
import PipeQuery.Toml.Document

/-!
# Settings files

Settings are written to and read from TOML documents with a section for each part of the program.
What a document leaves out is as in the standard settings, and what it has besides does not count.

## Main definitions

* `Settings.toText`: the document of settings
* `Settings.ofText?`, `Settings.ofFile`: the settings of a document, and of a file
* `Settings.searchPath`: where a settings file is looked for
-/

namespace PipeQuery.Settings

/-! ## Writing -/

/-- The document of settings. -/
def toText (s : Settings) : String :=
  "[parser]\nmax_depth = " ++ toString s.parser.maxDepth ++
    "\nerror_strategy = \"" ++ s.parser.strategy.name ++
    "\"\n\n[output]\nformat = \"" ++ s.format.name ++
    "\"\npretty = " ++ (if s.pretty then "true" else "false") ++
    "\n\n[debug]\nverbosity = " ++ toString s.verbosity ++ "\n"

/-! ## Reading -/

/-- What stands under some keys of a table. The values under its other keys do not count, but their
numbers must be such that they can be kept. -/
def entries? (keys : List String) (t : Toml.Entries) : Option (String → Option Toml) :=
  if t.all fun (key, v) => keys.contains key || v.isKept then some fun key => t.lookup key else none

/-- The items of an array as what stands under some keys, in the order of the keys. -/
def itemsAsEntries (keys : List String) (items : List Toml) : String → Option Toml :=
  fun key => (keys.zip items).lookup key

/-- What stands under the keys of a section. A section may also be written as an array of the values
in order, and as a date it has none of them. A missing section has none either. -/
def section? (name : String) (keys : List String) (t : String → Option Toml) :
    Option (String → Option Toml) :=
  match t name with
  | none | some .dateTime => some fun _ => none
  | some (.table _ entries) => entries? keys entries
  | some (.array items) => some (itemsAsEntries keys items)
  | some (.tables items) => some (itemsAsEntries keys (items.map (Toml.table .header)))
  | some _ => none

/-- What `read` makes of the value under a key, and `standard` if there is no such key. -/
def entry? {α : Type} (read : Toml → Option α) (standard : α) (key : String)
    (t : String → Option Toml) : Option α :=
  match t key with
  | none => some standard
  | some v => read v

/-- A natural number below a limit. -/
def natural? (limit : Nat) : Toml → Option Nat
  | .integer n => if 0 ≤ n ∧ n < limit then some n.toNat else none
  | _ => none

/-- Whether a value is an array or a table without anything in it. -/
def isHollow : Toml → Bool
  | .array [] | .table _ [] => true
  | _ => false

/-- What is named by a string. The name may also be the only key of a table, with nothing to speak of
under it. -/
def named? {α : Type} (ofName? : String → Option α) : Toml → Option α
  | .string s => ofName? s
  | .table _ [(s, v)] => if isHollow v then ofName? s else none
  | _ => none

/-- A boolean. -/
def boolean? : Toml → Option Bool
  | .boolean b => some b
  | _ => none

/-- The settings that a table stands for. -/
def ofEntries? (t : Toml.Entries) : Option Settings := do
  let sections ← entries? ["parser", "output", "debug"] t
  let parser ← section? "parser" ["max_depth", "error_strategy"] sections
  let output ← section? "output" ["format", "pretty"] sections
  let debug ← section? "debug" ["verbosity"] sections
  return {
    parser := {
      maxDepth := ← entry? (natural? (Nat.pow 2 64)) standard.parser.maxDepth "max_depth" parser
      strategy :=
        ← entry? (named? Strategy.ofName?) standard.parser.strategy "error_strategy" parser }
    format := ← entry? (named? Format.ofName?) standard.format "format" output
    pretty := ← entry? boolean? standard.pretty "pretty" output
    verbosity := ← entry? (natural? (Nat.pow 2 8)) standard.verbosity "verbosity" debug }

/-- The settings that a document stands for. -/
def ofText? (text : String) : Option Settings := (Toml.document? text).bind ofEntries?

/-- A reason to refuse a settings file. -/
inductive FileFault where
  | unsupported
  | invalid
deriving DecidableEq

/-- The wording of a reason. -/
def FileFault.message : FileFault → String
  | unsupported => "Unsupported config file format"
  | invalid => "Invalid TOML config"

/-- The settings of the file at a path. -/
def ofFile (path text : String) : Except FileFault Settings :=
  if Path.extension? path = some "toml" then
    match ofText? text with
    | some settings => .ok settings
    | none => .error .invalid
  else .error .unsupported

/-! ## Places -/

/-- The names a settings file may have, the preferred one first. -/
def fileNames : List String := ["pipeql.toml", ".pipeql.toml"]

/-- Where a settings file is looked for, in order: in the working directory, in the directory of
the user's configuration, and in the user's home. -/
def searchPath (working : String) (configuration home : Option String) : List String :=
  fileNames.map (Path.join working) ++
    (configuration.toList.map fun dir => Path.join (Path.join dir "pipeql") "pipeql.toml") ++
    home.toList.flatMap fun dir => fileNames.map (Path.join dir)

end PipeQuery.Settings
