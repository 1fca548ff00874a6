import FieldPlan.Expr.Basic

/-!
# Fresh parameters

* `Fresh α` : computations that draw parameters; the state is the first number not drawn yet;
* `Fresh.param` : a parameter with a number of its own.
-/

namespace FieldPlan

/-- Computations that draw fresh parameters. -/
abbrev Fresh := StateM Nat

/-- A parameter with a number of its own. -/
def Fresh.param (name : String) (t : Ty) : Fresh Param :=
  modifyGet fun n => (⟨n, name, t⟩, n + 1)

end FieldPlan
