import PipeQuery.Parser.State

/-!
# Errors and recovery

An error is attached to the node of the rule that met it. Until the next token is matched, no
further error is kept, since it would tell of the same place. The rule that met an error drops
tokens until one can be matched by a rule that is still open; if the input ends first, the parse
is over.

## Main definitions

* `Parser.report`, `Parser.fail`: keep an error, and leave the rule that met it
* `Parser.recover`: look for a place to go on
* `Parser.expectOneOf`: match a token of one of several kinds, dropping a stray one before it
* `Parser.within`: run the body of a rule between opening and closing its node
-/

namespace PipeQuery.Parser

open Token (Kind KindSet)

/-- The kind of the token `k` places ahead. -/
def ahead (k : Nat) : Run Kind := do return (← get).kindAt k

/-- The number of tokens before the end of the input. -/
def remaining : Run Nat := do return (← get).stream.remaining

/-- Match the current token. -/
def consume : Run Unit := modify State.consume

/-- Give the current node its alternative. -/
def relabel (label : Label) : Run Unit := modify (State.relabel · label)

/-- Wrap the current node for another round of a left-recursive rule. -/
def wrap (label : Label) : Run Unit := modify (State.wrap · label)

/-- Keep an error in the tree, at the node `id`. Errors met while recovering from an earlier one
are not kept. A parse that bails out ends here. -/
def report (strategy : Strategy) (id : NodeId) (e : SyntaxError) : Run Unit := fun s =>
  if s.recovering then .ok () s
  else
    -- The next errors are kept again when a token has been matched.
    let s := s.raise id e
    match strategy with
    | .bail => .error .halt (s.terminate (.bailed e))
    | .recover => .ok () { s with lastError := some e }

/-- Report an error at the current token, in the current node. -/
def reportHere (strategy : Strategy) (cause : SyntaxError.Cause) (expected : KindSet) : Run Unit :=
  fun s => report strategy s.node (s.errorHere cause expected) s

/-- Report an error at the current token and leave the rule. -/
def fail (strategy : Strategy) (cause : SyntaxError.Cause) (expected : KindSet) : Run Unit := do
  reportHere strategy cause expected
  throw .resync

/-- End the parse because more rules are open than `limit`. -/
def failTooDeep (limit : Nat) : Run Unit := fun s =>
  let e := s.errorHere (.tooDeep limit) ∅
  .error .halt ({ s with arena := s.arena.attach s.node e }.terminate (.tooDeep e))

/-- Drop tokens until some open rule can go on. The parse is over if tokens were dropped and the
input ended; the last error kept is then the reason. -/
def recover : Run Unit := fun s =>
  let t := { s with recovering := true }.discardUntil s.node s.resyncSet s.stream.remaining
  -- Where nothing had to be dropped, the open rules end at the end of the input themselves.
  if t.kindAt 1 = .endOfInput && s.cursor < t.cursor then
    match t.lastError with
    | some e => .error .halt ({ t with lastError := none }.terminate (.unrecoverable e))
    | none => .error .halt t
  else .ok () t

/-- Do `step`, and look for a place to go on if it leaves the rule. -/
def recovering (step : Run Unit) : Run Unit := fun s =>
  match step s with
  | .error .resync s => recover s
  | result => result

/-- Match a token of a kind in `set`. A single stray token in front of one is reported and
dropped. -/
def expectOneOf (strategy : Strategy) (set : KindSet) : Run Unit := do
  if set.contains (← ahead 1) then consume
  else if (← ahead 1) ≠ .endOfInput && set.contains (← ahead 2) then
    -- The token behind this one fits, so this one is the stray.
    reportHere strategy .extraneous set
    modify fun s => s.discard s.node
    consume
  else fail strategy .mismatched set

/-- Match a token of kind `k`. -/
def expect (strategy : Strategy) (k : Kind) : Run Unit := expectOneOf strategy (.ofList [k])

/-- Report a floor above the highest that the rule accepts, and go on. -/
def checkFloor (strategy : Strategy) (floor highest : Nat) : Run Unit :=
  if floor ≤ highest then pure () else reportHere strategy (.floorTooHigh floor highest) ∅

/-- Run the body of a rule between opening and closing its node. An error that leaves the body is
recovered from before the node is closed. -/
def within (label : Label) (floor : Nat) (body : Run Unit) : Run Unit := fun s =>
  match recovering body (s.enter label floor) with
  | .ok () s => .ok () s.leave
  | .error a s => .error a s.leave

/-- Report that the stage before the current token is followed by neither a pipe nor an end, and
go on at the next such place. -/
def syncStage (strategy : Strategy) : Run Unit :=
  recovering (fail strategy .noViable Rule.query.follow)

end PipeQuery.Parser
