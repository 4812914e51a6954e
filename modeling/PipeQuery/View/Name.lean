import PipeQuery.Text.Quoted
import PipeQuery.Tree.Basic

/-!
# Names in a tree

Names are read off their nodes without the backticks they may be written in. A node that an error
left without its token has no name.

## Main definitions

* `QualifiedName`: the parts of a dotted name
* `ParseTree.nameAt?`: the name written by the first token of a node
* `ParseTree.sourceName?`, `ParseTree.qualifiedName?`: the names that nodes stand for
-/

namespace PipeQuery

/-- A dotted name. -/
structure QualifiedName where
  parts : List String
deriving DecidableEq

/-- The parts of a name with dots between them. -/
def QualifiedName.display (n : QualifiedName) : String := ".".intercalate n.parts

namespace ParseTree

variable (t : ParseTree)

/-- The child node of a node at a place among its child nodes. -/
def childNode? (id : NodeId) (i : Nat) : Option NodeId := (t.childNodes id)[i]?

/-- The name that the first token of a node is written for. -/
def nameAt? (id : NodeId) : Option String :=
  (t.firstToken? id).map fun token => unquoteName token.text

/-- The name of a source or column. -/
def sourceName? (id : NodeId) : Option String :=
  if t.label id = .sourceIdentifier then t.nameAt? id else none

/-- The name that a `qualifiedName` stands for. -/
def qualifiedName? (id : NodeId) : Option QualifiedName :=
  if t.label id = .qualifiedName then some ⟨(t.childNodes id).filterMap t.nameAt?⟩ else none

end ParseTree

end PipeQuery
