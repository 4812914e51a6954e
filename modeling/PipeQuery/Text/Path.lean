/-!
# Paths

A path is a text whose parts stand between slashes.

## Main definitions

* `Path.fileName?`: the last part of a path
* `Path.extension?`: what stands behind the last dot of it
* `Path.join`: a path inside a directory
-/

namespace PipeQuery.Path

/-- The parts of a path. A part that is a single dot stands for no step, and neither does an empty
one. -/
def parts (path : String) : List String :=
  (path.splitOn "/").filter fun part => part ≠ "" ∧ part ≠ "."

/-- The last part of a path, unless it is a step up. -/
def fileName? (path : String) : Option String := (parts path).getLast?.filter (· ≠ "..")

/-- What stands behind the last dot of the file name. A dot at its very start does not count. -/
def extension? (path : String) : Option String :=
  (fileName? path).bind fun name =>
    let (behind, before) := name.toList.reverse.span (· ≠ '.')
    -- Read backwards, `before` starts with the last dot.
    if before.length ≤ 1 then none else some (String.ofList behind.reverse)

/-- The path of a file in a directory. -/
def join (directory path : String) : String :=
  if path.startsWith "/" || directory.isEmpty then path
  else if directory.endsWith "/" then directory ++ path
  else directory ++ "/" ++ path

end PipeQuery.Path
