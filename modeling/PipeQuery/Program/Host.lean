/-!
# What a program is run on

The files, variables and input that a program can reach, in any monad. A run on the computer and a
run on a description of files differ in nothing else.

## Main definitions

* `FileError`: why a file cannot be read or written
* `Host`: what a program can reach
-/

namespace PipeQuery

/-- Why a file cannot be read or written. -/
inductive FileError where
  | missing
  | denied
  | notDirectory
  | isDirectory
  /-- The bytes of the file are no text. -/
  | notText
  | other (what : String)
deriving DecidableEq

/-- The wording of an error. -/
def FileError.message : FileError → String
  | missing => "No such file or directory (os error 2)"
  | denied => "Permission denied (os error 13)"
  | notDirectory => "Not a directory (os error 20)"
  | isDirectory => "Is a directory (os error 21)"
  | notText => "stream did not contain valid UTF-8"
  | other what => what

/-- What a program can reach. -/
structure Host (m : Type → Type) where
  /-- The variables of the environment. -/
  environment : m (String → Option String)
  workingDirectory : m String
  /-- The standard input to its end, or nothing if that is a terminal. -/
  input : m (Except FileError (Option String))
  /-- The text of the file at a path. -/
  load : String → m (Except FileError String)
  /-- Make a text the contents of the file at a path. -/
  store : String → String → m (Except FileError Unit)
  /-- Whether there is a file at a path. -/
  isFile : String → m Bool
  /-- Whether there is anything at a path. -/
  isPresent : String → m Bool

end PipeQuery
