import PipeQuery.Grammar.Precedence
import PipeQuery.Grammar.Production
import PipeQuery.Main
import PipeQuery.Number.Literal
import PipeQuery.Program.Files
import PipeQuery.Proofs.Grammar.FirstFollow
import PipeQuery.Proofs.Lexer.Brackets
import PipeQuery.Proofs.Lexer.Failure
import PipeQuery.Proofs.Lexer.Layout
import PipeQuery.Proofs.Lexer.MaximalMunch
import PipeQuery.Proofs.Lexer.Quoting
import PipeQuery.Proofs.Parser.Carets
import PipeQuery.Proofs.Parser.Causes
import PipeQuery.Proofs.Parser.Conditions
import PipeQuery.Proofs.Parser.Coverage
import PipeQuery.Proofs.Parser.Fields
import PipeQuery.Proofs.Parser.FirstError
import PipeQuery.Proofs.Parser.Invariants
import PipeQuery.Proofs.Parser.Kinds
import PipeQuery.Proofs.Parser.Layers
import PipeQuery.Proofs.Parser.Located
import PipeQuery.Proofs.Parser.OneTree
import PipeQuery.Proofs.Parser.Outcomes
import PipeQuery.Proofs.Parser.Precedence
import PipeQuery.Proofs.Parser.Progress
import PipeQuery.Proofs.Parser.Raised
import PipeQuery.Proofs.Parser.Recognition
import PipeQuery.Proofs.Parser.Slices
import PipeQuery.Proofs.Parser.Strategies
import PipeQuery.Proofs.Token.Sets
import PipeQuery.Proofs.Tree.JsonText
import PipeQuery.Proofs.Tree.Linked
import PipeQuery.Proofs.Tree.Traversals
import PipeQuery.Proofs.View.Clauses
import PipeQuery.Proofs.View.Faithful
import PipeQuery.Text.Quoted
import PipeQuery.Tree.Source
import PipeQuery.View.Query
