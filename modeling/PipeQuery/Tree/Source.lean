import PipeQuery.Text.Slice
import PipeQuery.Tree.Basic

/-!
# The source of a node

## Main definitions

* `ParseTree.sourceText?`: the part of a source that a node covers
-/

namespace PipeQuery.ParseTree

/-- The part of a source from the first to the last token that a node covers. There is none if the
node covers no token, or if its tokens are not from this source and their bytes do not fit it. -/
def sourceText? (t : ParseTree) (source : String) (id : NodeId) : Option String := do
  let span := (t.node id).span
  if span.isEmpty then none
  else
    let first ← t.tokens[span.start]?
    let last ← t.tokens[span.stop - 1]?
    (slice? source.toList first.span.start last.span.stop).map String.ofList

end PipeQuery.ParseTree
