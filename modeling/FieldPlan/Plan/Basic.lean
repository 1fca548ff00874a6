import FieldPlan.Expr.Basic

/-!
# Plans

* `Plan` : an expression over a root parameter, with what its other parameters are bound to;
* `PlannedField` : the one or two plans of a root field, the second reading the result of the first.
-/

namespace FieldPlan

/-- What a parameter of a plan is bound to. -/
inductive Binding where
  | value (v : Json)
  | service (name : ServiceName)
deriving Inhabited

/-- One executable pass: the body, its root parameter and the bindings of its other parameters. -/
structure Plan where
  root : Param
  body : Expr
  bindings : List (Param × Binding)
  services : List ServiceName
deriving Inhabited

def Plan.resultTy (p : Plan) : Ty := p.body.ty

/-- A root field with its plans: the shape pass needs no services, the service pass reads its
result. -/
structure PlannedField where
  name : String
  shapePass : Option Plan
  servicePass : Option Plan
deriving Inhabited

/-- The plan whose result is the value of the field. -/
def PlannedField.finalPlan (f : PlannedField) : Option Plan := f.servicePass <|> f.shapePass

end FieldPlan
