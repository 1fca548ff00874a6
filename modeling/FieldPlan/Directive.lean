import FieldPlan.Expr.Basic

/-!
# Directives

A directive prunes or redirects a selected node, and prunes or changes the expression of a field.

* `Directive` : the two hooks, which keep everything by default;
* `Directive.includeIf`, `Directive.skipIf` : keep what they stand on by their argument `if`.
-/

namespace FieldPlan

abbrev NodeId := Nat

/-- Where a directive may stand. -/
inductive Location where
  | field
  | fragmentSpread
  | inlineFragment
deriving DecidableEq, Repr, Inhabited

def Location.name : Location → String
  | .field => "FIELD"
  | .fragmentSpread => "FRAGMENT_SPREAD"
  | .inlineFragment => "INLINE_FRAGMENT"

/-- A directive; an error is the message about its arguments. -/
structure Directive where
  name : String
  description : String
  locations : List Location
  /-- The node that stands for a node, if any. -/
  processField : NodeId → Dict Json → Except String (Option NodeId) :=
    fun node _ => pure (some node)
  /-- The expression that stands for an expression, if any. -/
  processExpression : Expr → Dict Json → Except String (Option Expr) :=
    fun e _ => pure (some e)

namespace Directive

def condition (name : String) (arguments : Dict Json) : Except String Bool :=
  match arguments.find? "if" with
  | some (.bool b) => pure b
  | _ => throw ("Argument 'if' is required for @" ++ name ++ " directive")

/-- A directive that keeps what it stands on when its condition has the value `keep`. -/
def conditional (name description : String) (keep : Bool) : Directive where
  name := name
  description := description
  locations := [.field, .fragmentSpread, .inlineFragment]
  processField node arguments := do
    return if (← condition name arguments) == keep then some node else none
  processExpression e arguments := do
    return if (← condition name arguments) == keep then some e else none

/-- Keeps what it stands on if its condition is true. -/
def includeIf : Directive :=
  conditional "include"
    ("Directs the executor to include this field or fragment only when the `if` argument is " ++
      "true.")
    true

/-- Keeps what it stands on if its condition is false. -/
def skipIf : Directive :=
  conditional "skip"
    "Directs the executor to skip this field or fragment when the `if` argument is true."
    false

end Directive

end FieldPlan
