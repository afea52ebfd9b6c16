import UnitSheet.Main
import UnitSheet.Proofs.Sheet.Source
import UnitSheet.Proofs.Sheet.Permutation
import UnitSheet.Proofs.Sheet.Sequence
import UnitSheet.Proofs.Sheet.Isolation
import UnitSheet.Proofs.Plan.Insertion
import UnitSheet.Proofs.Sheet.Insertion
import UnitSheet.Proofs.Sheet.Answer
import UnitSheet.Proofs.Sheet.Failing
import UnitSheet.Proofs.Token.Spacing
import UnitSheet.Proofs.Token.Respacing
import UnitSheet.Proofs.Expr.Place
import UnitSheet.Proofs.Expr.Respacing
import UnitSheet.Proofs.Expr.Progress
import UnitSheet.Proofs.Expr.Nesting
import UnitSheet.Proofs.Expr.Splitting
import UnitSheet.Proofs.Expr.Precedence
import UnitSheet.Proofs.Expr.Signs
import UnitSheet.Proofs.Expr.Arguments
import UnitSheet.Proofs.Expr.Delimited
import UnitSheet.Proofs.Expr.Conservation
import UnitSheet.Proofs.Token.Tiling
import UnitSheet.Proofs.Evaluation.Relevance
import UnitSheet.Proofs.Sheet.Operation
import UnitSheet.Proofs.Sheet.Ordering
import UnitSheet.Proofs.Sheet.Cycle
import UnitSheet.Proofs.Sheet.Display
import UnitSheet.Proofs.Sheet.Assigned
import UnitSheet.Proofs.Evaluation.Substitution
import UnitSheet.Proofs.Evaluation.Strictness
import UnitSheet.Proofs.Evaluation.Depth
import UnitSheet.Proofs.Expr.Pointing
import UnitSheet.Proofs.Evaluation.Units
import UnitSheet.Proofs.Evaluation.Figures
import UnitSheet.Proofs.Evaluation.Pointwise
import UnitSheet.Proofs.Unit.Root
import UnitSheet.Proofs.Expr.FreeNames
import UnitSheet.Proofs.Value.Elementwise
import UnitSheet.Proofs.Settings.Reading
import UnitSheet.Proofs.Token.Spelling
import UnitSheet.Proofs.Unit.Printing
import UnitSheet.Proofs.Settings.Writing
