import PipeQuery.Program.Host

/-!
# Described files

Files that are given by a list of their paths and texts, and a host that reaches nothing else.
There is a directory wherever a path leads through one.

## Main definitions

* `Files`: files, and the empty directories that are there besides
* `Files.locate`: where a path leads
* `Files.load`, `Files.store`: the text at a path, and the files with another text there
* `Files.host`: a host with described files, variables and input
-/

namespace PipeQuery

/-- Files by the parts of their paths. -/
structure Files where
  files : List (List String × String)
  directories : List (List String)

namespace Files

/-- The text of a file. -/
def text? (fs : Files) (path : List String) : Option String := fs.files.lookup path

/-- Whether there is a directory at a path. -/
def isDirectory (fs : Files) (path : List String) : Bool :=
  path.isEmpty || fs.directories.contains path ||
    fs.files.any fun f => path.isPrefixOf f.1 && path ≠ f.1

/-- Where steps from a place lead. There can be a further step only from a directory. -/
def walk (fs : Files) : List String → List String → Except FileError (List String)
  | here, [] => .ok here
  | here, step :: steps =>
    if fs.isDirectory here then
      -- Above the root there is the root again.
      if step = ".." then walk fs here.dropLast steps
      else if step = "" ∨ step = "." then walk fs here steps
      else walk fs (here ++ [step]) steps
    else .error (if (fs.text? here).isSome then .notDirectory else .missing)

/-- Where a path leads, from a working directory if it starts with no slash. -/
def locate (fs : Files) (working : List String) (path : String) : Except FileError (List String) :=
  if path.isEmpty then .error .missing
  else fs.walk (if path.startsWith "/" then [] else working) (path.splitOn "/")

/-- The text of the file that a path leads to. -/
def load (fs : Files) (working : List String) (path : String) : Except FileError String := do
  let place ← fs.locate working path
  match fs.text? place with
  | some text => return text
  | none => throw (if fs.isDirectory place then .isDirectory else .missing)

/-- The files with a text at the place that a path leads to. -/
def store (fs : Files) (working : List String) (path text : String) : Except FileError Files := do
  let place ← fs.locate working path
  if fs.isDirectory place then throw .isDirectory
  if !fs.isDirectory place.dropLast then
    throw (if (fs.text? place.dropLast).isSome then .notDirectory else .missing)
  return { fs with files := (place, text) :: fs.files.filter (·.1 ≠ place) }

/-- Whether a path leads to a file. -/
def isFile (fs : Files) (working : List String) (path : String) : Bool :=
  (fs.load working path).isOk

/-- Whether a path leads to anything. -/
def isPresent (fs : Files) (working : List String) (path : String) : Bool :=
  match fs.locate working path with
  | .ok place => fs.isDirectory place || (fs.text? place).isSome
  | .error _ => false

/-- A host that works on described files. -/
def host (working : List String) (env : List (String × String)) (input : String) :
    Host (StateM Files) where
  environment := return fun name => env.lookup name
  workingDirectory := return "/" ++ "/".intercalate working
  input := return .ok (some input)
  load path := return (← get).load working path
  store path text := do
    match (← get).store working path text with
    | .ok fs => set fs; return .ok ()
    | .error e => return .error e
  isFile path := return (← get).isFile working path
  isPresent path := return (← get).isPresent working path

end Files

end PipeQuery
