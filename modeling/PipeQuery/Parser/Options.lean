import PipeQuery.Json.Value

/-!
# Options of a parse

How deep rules may nest, and what happens at a syntax error.

## Main definitions

* `Strategy`: what a parse does at a syntax error
* `Strategy.ofName?`, `Strategy.ofText`: the strategy with a name, by letter or letter case apart
* `Options`: the options of a parse, `Options.standard` when nothing is said
* `Options.toJson`, `Options.ofJson?`: their JSON form

## Main results

* `Strategy.ofName?_name`: a strategy is found by its name
-/

namespace PipeQuery

/-- What a parse does at a syntax error. -/
inductive Strategy where
  /-- Keep the error in the tree, look for a place to go on, and go on. -/
  | recover
  /-- Stop at the first error. -/
  | bail
deriving DecidableEq, Inhabited

namespace Strategy

/-- The name of a strategy. -/
def name : Strategy → String
  | recover => "recover"
  | bail => "bail"

/-- The strategy with a given name. -/
def ofName? (s : String) : Option Strategy := [recover, bail].find? (·.name = s)

/-- The strategy with a given name, letter case apart, or what to say of a name that none has. -/
def ofText (s : String) : Except String Strategy :=
  let s := s.map Char.toLower
  match ofName? s with
  | some strategy => .ok strategy
  | none => .error ("unknown error strategy '" ++ s ++ "'")

theorem ofName?_name (s : Strategy) : ofName? s.name = some s := by
  cases s <;> rfl

/-- The JSON form of a strategy: its name. -/
def toJson (s : Strategy) : Json := .string s.name

/-- The strategy with a given JSON form. The name may also be the key of an object that holds
nothing else. -/
def ofJson? : Json → Option Strategy
  | .string s => ofName? s
  | .object [(s, .null)] => ofName? s
  | _ => none

end Strategy

/-- The most rules that are open at once, and what to do at an error. -/
structure Options where
  maxDepth : Nat
  strategy : Strategy
deriving DecidableEq, Inhabited

namespace Options

/-- How many rules are open at most, unless told otherwise. -/
def defaultMaxDepth : Nat := 512

/-- The highest depth a configuration may ask for. -/
def maxDepthLimit : Nat := 2048

/-- The options of a parse that is told nothing. -/
def standard : Options := ⟨defaultMaxDepth, .recover⟩

/-- The options as a JSON object. -/
def toJson (o : Options) : Json :=
  .object [("max_depth", .nat o.maxDepth), ("error_strategy", o.strategy.toJson)]

/-- A depth in its JSON form: a natural number of 64 bits. -/
def depthOfJson? : Json → Option Nat
  | .number n 0 => if 0 ≤ n ∧ n < Int.pow 2 64 then some n.toNat else none
  | _ => none

/-- What `read` makes of an item that may be missing; then it is `standard`. -/
def given? {α : Type} (read : Json → Option α) (standard : α) : Option Json → Option α
  | some j => read j
  | none => some standard

/-- The options with a given JSON form: an object, whose other keys do not count, or an array of
the values in order. What is missing is as in the standard options. -/
def ofJson? (j : Json) : Option Options := do
  let (depth, strategy) ←
    match j with
    | .object fields => some (fields.lookup "max_depth", fields.lookup "error_strategy")
    | .array items => if items.length ≤ 2 then some (items[0]?, items[1]?) else none
    | _ => none
  return ⟨← given? depthOfJson? defaultMaxDepth depth, ← given? Strategy.ofJson? .recover strategy⟩

end Options

end PipeQuery
