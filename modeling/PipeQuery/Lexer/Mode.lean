import PipeQuery.Token.Kind

/-!
# Lexing modes

How the next word is classified depends on a mode. Command words and pipes set it, and brackets
nest: an opening bracket starts a pipeline of its own, and its closing bracket goes back to the
mode in which the opening bracket stood.

## Main definitions

* `Lexer.Mode`: the three modes
* `Lexer.Modes`: the mode in force and the modes of the brackets that are open
* `Modes.next`, `Modes.after`: the modes behind a token and behind a list of tokens
-/

namespace PipeQuery.Lexer

/-- What the next word is taken for. -/
inductive Mode where
  /-- The start of a stage: words are commands. -/
  | command
  /-- The arguments of most commands. -/
  | expression
  /-- The lists of names behind `from` and `project`. -/
  | source
deriving DecidableEq, Inhabited

/-- The mode in force, and for each open bracket, innermost first, the mode it stands in. -/
structure Modes where
  current : Mode
  outer : List Mode
deriving DecidableEq, Inhabited

namespace Modes

/-- No bracket open, and a given mode in force. -/
def start (m : Mode) : Modes := ⟨m, []⟩

/-- The modes behind a token of kind `k`. A closing bracket without an opening one changes
nothing. -/
def next (m : Modes) : Token.Kind → Modes
  | .evalCmd | .explainCmd | .rowCmd | .statsCmd | .whereCmd | .sortCmd | .limitCmd =>
    { m with current := .expression }
  | .fromCmd | .projectCmd => { m with current := .source }
  | .pipe => { m with current := .command }
  | .leftBracket => ⟨.command, m.current :: m.outer⟩
  | .rightBracket =>
    match m.outer with
    | [] => m
    | mode :: outer => ⟨mode, outer⟩
  | _ => m

/-- The modes behind tokens of the kinds `ks`. -/
def after (m : Modes) (ks : List Token.Kind) : Modes := ks.foldl next m

@[simp]
theorem after_nil (m : Modes) : m.after [] = m := rfl

@[simp]
theorem after_cons (m : Modes) (k : Token.Kind) (ks : List Token.Kind) :
    m.after (k :: ks) = (m.next k).after ks := rfl

theorem after_append (m : Modes) (ks ks' : List Token.Kind) :
    m.after (ks ++ ks') = (m.after ks).after ks' :=
  List.foldl_append

end Modes

end PipeQuery.Lexer
