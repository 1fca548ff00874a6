import FieldPlan.Main
import FieldPlan.Proofs.Expr.ByType
import FieldPlan.Proofs.Expr.Ending
import FieldPlan.Proofs.Expr.Sorting
import FieldPlan.Proofs.Expr.Substitution
import FieldPlan.Proofs.Planning.Agreement
import FieldPlan.Proofs.Planning.Closed
import FieldPlan.Proofs.Planning.Depth
import FieldPlan.Proofs.Planning.Isolation
import FieldPlan.Proofs.Planning.Paged
import FieldPlan.Proofs.Planning.Typing
import FieldPlan.Proofs.Reference
import FieldPlan.Proofs.Selection.Forest
import FieldPlan.Proofs.Selection.Inheritance
import FieldPlan.Proofs.Schema.Arguments
import FieldPlan.Proofs.Schema.Complete
import FieldPlan.Proofs.Planning.Owners
import FieldPlan.Proofs.Wanted.Conforming
import FieldPlan.Proofs.Planning.Conforming
import FieldPlan.Proofs.Planning.Indistinct
import FieldPlan.Proofs.Planning.Formed
