import PipeQuery.Number.Numeral
import PipeQuery.Output.Format
import PipeQuery.Parser.Options

/-!
# Settings

What a run of the program depends on besides its input. Settings come from a file, the environment
and the command line, in this order; each overrides the ones before.

## Main definitions

* `Settings`: the settings, `Settings.standard` when nothing is said
* `Settings.withEnvironment`: the settings with what variables say
* `Overrides`, `Settings.override`: the settings with what the command line says
* `Settings.fault?`: what is wrong with settings
-/

namespace PipeQuery

/-- What a run of the program depends on besides its input. -/
structure Settings where
  parser : Options
  format : Format
  /-- Whether trees and their JSON form are spread over lines. -/
  pretty : Bool
  verbosity : Nat
deriving DecidableEq

/-- What the command line says of settings. -/
structure Overrides where
  maxDepth : Option Nat
  bail : Bool
  format : Option Format
  compact : Bool
  verbose : Nat
deriving DecidableEq

namespace Settings

/-- The settings of a run that is told nothing. -/
def standard : Settings := ⟨.standard, .tree, true, 0⟩

/-- The settings with what variables of the environment say. A variable whose value cannot be read
takes its setting back to the standard. -/
def withEnvironment (s : Settings) (env : String → Option String) : Settings :=
  -- A variable that is not set leaves its setting.
  let read {α : Type} (name : String) (f : String → α) (old : α) : α :=
    ((env name).map f).getD old
  { parser :=
      { maxDepth :=
          read "PIPEQL_MAX_DEPTH"
            (fun v => (readNatural? (Nat.pow 2 64) v.toList).getD Options.defaultMaxDepth)
            s.parser.maxDepth
        strategy :=
          read "PIPEQL_ERROR_STRATEGY"
            (fun v => (Strategy.ofText v).toOption.getD Options.standard.strategy)
            s.parser.strategy }
    format :=
      read "PIPEQL_FORMAT" (fun v => (Format.ofText v).toOption.getD standard.format) s.format
    pretty := read "PIPEQL_PRETTY" (fun v => v ≠ "0" ∧ v.map Char.toLower ≠ "false") s.pretty
    verbosity :=
      read "PIPEQL_VERBOSITY" (fun v => (readNatural? (Nat.pow 2 8) v.toList).getD standard.verbosity)
        s.verbosity }

/-- The settings with what the command line says. -/
def override (s : Settings) (o : Overrides) : Settings :=
  { parser :=
      { maxDepth := o.maxDepth.getD s.parser.maxDepth
        strategy := if o.bail then .bail else s.parser.strategy }
    format := o.format.getD s.format
    pretty := s.pretty && !o.compact
    verbosity := if o.verbose = 0 then s.verbosity else o.verbose }

/-- A reason to refuse settings. -/
inductive Fault where
  | depthZero
  | depthTooHigh
deriving DecidableEq

/-- The wording of a reason. -/
def Fault.message : Fault → String
  | depthZero => "max_depth must be greater than 0"
  | depthTooHigh => "max_depth must be at most " ++ toString Options.maxDepthLimit

/-- What is wrong with settings. -/
def fault? (s : Settings) : Option Fault :=
  if s.parser.maxDepth = 0 then some .depthZero
  else if Options.maxDepthLimit < s.parser.maxDepth then some .depthTooHigh
  else none

theorem fault?_eq_none_iff {s : Settings} :
    s.fault? = none ↔ 0 < s.parser.maxDepth ∧ s.parser.maxDepth ≤ Options.maxDepthLimit := by
  unfold fault?
  split
  · simp_all
  split
  · simp_all
  · simp only [true_iff]
    omega

end Settings

end PipeQuery
