import FieldPlan.Expr.Fresh
import FieldPlan.Path
import FieldPlan.Schema.Field

/-!
# Extensions of fields

An extension changes how a field is compiled at three places: the base expression before the
children are compiled, the base expression with the compiled children, and the expression of a
scalar field.

* `Site` : what an extension is told about the field that is compiled;
* `Extension` : the three hooks, which do nothing by default;
* `Field` : a field with its extensions, which run in order.
-/

namespace FieldPlan

/-- What an extension is told about the field that is compiled. -/
structure Site where
  /-- The field of an owner and a name. -/
  fieldOf : String → String → Option FieldDef
  field : FieldDef
  /-- The validated arguments. -/
  arguments : Dict Json
  path : Path
  /-- Whether the base expression reads a value that the shape pass materialized. -/
  materialized : Bool
  servicePass : Bool

/-- Why an extension refused. -/
inductive ExtensionError where
  | argument (message : String)
  | other (message : String)
deriving Repr, Inhabited

/-- What an extension does: it may draw parameters and may refuse. -/
abbrev Hook := StateT Nat (Except ExtensionError)

/-- Runs a drawing of parameters where an error is possible. -/
def Fresh.lift {ε α : Type} (x : Fresh α) : StateT Nat (Except ε) α := fun n => .ok (x.run n)

/-- Compiled children by output name, in the order of selection. -/
abbrev Children := Dict Expr

structure Extension where
  name : String
  /-- The arguments that it adds to the field. -/
  arguments : List ArgumentDef := []
  /-- Changes the base expression and, for a list, the parameter of its elements. -/
  preSelection : Site → Expr → Option Param → Hook (Expr × Option Param) :=
    fun _ base item => pure (base, item)
  /-- Changes the base expression, the children and the parameter of the elements. -/
  selection : Site → Expr → Children → Option Param → Hook (Expr × Children × Option Param) :=
    fun _ base children item => pure (base, children, item)
  /-- Changes the expression of a scalar field. -/
  scalarExpression : Site → Expr → Hook Expr := fun _ e => pure e

/-- A field with its extensions. -/
structure Field extends FieldDef where
  extensions : List Extension

end FieldPlan
