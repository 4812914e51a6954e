import PipeQuery.Grammar.FirstFollow
import PipeQuery.Parser.Options
import PipeQuery.Token.Stream
import PipeQuery.Tree.Arena

/-!
# The state of a parse

A parse reads a token stream and builds an arena. It keeps the open rules, innermost first, and
remembers whether a token was matched since the last error.

## Main definitions

* `Parser.Frame`, `Parser.State`: an open rule, and the state of a parse
* `Parser.Abort`, `Parser.Run`: how a rule can end early, and the steps of a parse
* `State.consume`, `State.discard`, `State.enter`, `State.leave`, `State.wrap`, `State.raise`: the
  moves on states
-/

namespace PipeQuery

namespace Parser

open Token (Kind KindSet)

/-- An open rule, the node it is building, and its floor. -/
structure Frame where
  rule : Rule
  node : NodeId
  floor : Nat
deriving DecidableEq

/-- The state of a parse. -/
structure State where
  stream : TokenStream
  arena : Arena
  /-- The open rules, innermost first. -/
  frames : List Frame
  /-- Whether an error was met and no token has been matched since. -/
  recovering : Bool
  /-- The last error kept in the tree, until it ends the parse. -/
  lastError : Option SyntaxError
  /-- Why the parse is over. -/
  failure : Option Failure
  /-- The errors raised so far, the last of them first. They are a record of the parse, which never
  looks at them. -/
  raised : List SyntaxError
deriving Inhabited

/-- How a rule ends early. -/
inductive Abort where
  /-- The rule met an error and looks for a place to go on. -/
  | resync
  /-- The parse is over. -/
  | halt
deriving DecidableEq

/-- A step of a parse. The state is kept when a step ends early. -/
abbrev Run := EStateM Abort State

namespace State

/-- The state in which a parse of `stream` starts. -/
def start (stream : TokenStream) : State := ⟨stream, .empty, [], false, none, none, []⟩

/-- The place of the current token. -/
def cursor (s : State) : Nat := s.stream.cursor

/-- The kind of the token `k` places ahead; the current token is one place ahead. -/
def kindAt (s : State) (k : Nat) : Kind := s.stream.kindAt k

/-- The node of the innermost open rule. -/
def node (s : State) : NodeId := (s.frames.head?.map Frame.node).getD 0

/-- The innermost open rule. -/
def rule (s : State) : Rule := (s.frames.head?.map Frame.rule).getD .singleStatement

/-- The error of a cause at the current token. -/
def errorHere (s : State) (cause : SyntaxError.Cause) (expected : KindSet) : SyntaxError :=
  ⟨cause, s.rule, s.cursor, s.stream.peek 1, expected⟩

/-- Match the current token: it becomes a child of the current node, and the parse is on course
again. -/
def consume (s : State) : State :=
  { s with
    stream := s.stream.consume
    arena := s.arena.push s.node (.token s.cursor)
    recovering := false }

/-- Drop the current token: it becomes a discarded child of the node `id`. -/
def discard (s : State) (id : NodeId) : State :=
  { s with
    stream := s.stream.consume
    arena := s.arena.push id (.discarded s.cursor) }

/-- Drop tokens into the node `id`, at most `n`, up to the end of the input or the first kind in
`stop`. -/
def discardUntil (id : NodeId) (stop : KindSet) : Nat → State → State
  | 0, s => s
  | n + 1, s =>
    if s.kindAt 1 = .endOfInput || stop.contains (s.kindAt 1) then s
    else discardUntil id stop n (s.discard id)

/-- Open a rule at the current token, with a node below that of the innermost rule. -/
def enter (s : State) (label : Label) (floor : Nat) : State :=
  { s with
    arena := s.arena.openNode label (s.frames.head?.map Frame.node) s.cursor
    frames := ⟨label.rule, s.arena.size, floor⟩ :: s.frames }

/-- Close the innermost rule and its node before the current token. -/
def leave (s : State) : State :=
  match s.frames with
  | [] => s
  | f :: rest => { s with arena := s.arena.close f.node s.cursor, frames := rest }

/-- Give the current node its alternative. -/
def relabel (s : State) (label : Label) : State :=
  { s with arena := s.arena.relabel s.node label }

/-- Wrap the current node in a new one, on which the innermost rule goes on. -/
def wrap (s : State) (label : Label) : State :=
  match s.frames with
  | [] => s
  | f :: rest =>
    { s with
      arena := s.arena.wrap f.node label s.cursor
      frames := { f with node := s.arena.size } :: rest }

/-- Raise an error at the node `id`. The parse recovers from it until a token is matched. -/
def raise (s : State) (id : NodeId) (e : SyntaxError) : State :=
  { s with
    arena := s.arena.attach id e
    recovering := true
    raised := e :: s.raised }

/-- End the parse; the first reason given is kept. -/
def terminate (s : State) (failure : Failure) : State :=
  { s with failure := s.failure.or (some failure) }

/-- The kinds at which some open rule can go on. -/
def resyncSet (s : State) : KindSet :=
  (s.frames.foldl (fun set (f : Frame) => set ∪ f.rule.follow) ∅).erase .endOfInput

end State

end Parser

end PipeQuery
