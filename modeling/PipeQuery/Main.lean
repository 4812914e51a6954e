import PipeQuery.Program.Run

/-!
# The program on a computer

## Main definitions

* `PipeQuery.computer`: the files, variables and input of the computer
* `main`: a run of the program
-/

namespace PipeQuery

/-- The variables of the environment that the program reads. -/
def variableNames : List String :=
  ["HOME", "XDG_CONFIG_HOME", "PIPEQL_MAX_DEPTH", "PIPEQL_ERROR_STRATEGY", "PIPEQL_FORMAT",
    "PIPEQL_PRETTY", "PIPEQL_VERBOSITY"]

/-- The error that the computer reports. -/
def FileError.reported : IO.Error → FileError
  | .noFileOrDirectory .. => .missing
  | .permissionDenied .. => .denied
  | e => .other (toString e)

/-- The text of bytes. -/
def textOf (bytes : ByteArray) : Except FileError String :=
  match String.fromUTF8? bytes with
  | some text => .ok text
  | none => .error .notText

/-- The bytes of a stream, from those read so far to its end. -/
partial def readToEnd (stream : IO.FS.Stream) (bytes : ByteArray) : IO ByteArray := do
  let chunk ← stream.read 65536
  if chunk.isEmpty then return bytes else readToEnd stream (bytes ++ chunk)

/-- What `action` gives, or the error that it reports. -/
def reporting {α : Type} (action : IO (Except FileError α)) : IO (Except FileError α) := do
  try action
  catch e => return .error (.reported e)

/-- Whether `action` ends without an error. -/
def succeeds {α : Type} (action : IO α) : IO Bool := do
  try
    let _ ← action
    return true
  catch _ => return false

/-- The files, variables and input of the computer. -/
def computer : Host IO where
  environment := do
    let values ← variableNames.mapM fun name => return (name, ← IO.getEnv name)
    return fun name => (values.lookup name).join
  workingDirectory := return toString (← IO.currentDir)
  input := do
    let stream ← IO.getStdin
    -- Nobody is asked to type a query.
    if ← stream.isTty then return .ok none
    else reporting do return (textOf (← readToEnd stream .empty)).map some
  load path := reporting do return textOf (← IO.FS.readBinFile path)
  store path text := reporting do return .ok (← IO.FS.writeFile path text)
  isFile path := succeeds (IO.FS.readBinFile path)
  isPresent path := succeeds (IO.FS.Handle.mk path .read)

end PipeQuery

open PipeQuery in
/-- Run the program. -/
def main (args : List String) : IO UInt32 := do
  let outcome ← PipeQuery.run computer args
  IO.print outcome.output
  IO.eprint outcome.errors
  return outcome.status.toUInt32
