import FieldPlan.Json.Basic

/-!
# The order of JSON values as sort keys

* `Json.toBinary64` : the double nearest to a number;
* `Json.sortOrder` : null before booleans before numbers before strings before arrays before
  objects; numbers are compared as doubles and strings by code point, two arrays or two objects
  never differ.
-/

namespace FieldPlan.Json

/-- The double nearest to a number, zero for other values. -/
def toBinary64 : Json → Binary64
  | .int n => Binary64.ofInt n
  | .double x => x
  | _ => ⟨false, 0⟩

/-- The order of two values as sort keys. -/
def sortOrder (a b : Json) : Ordering :=
  match a, b with
  | .bool a, .bool b => compare a b
  | .str a, .str b => compare a b
  | a, b =>
    if a.rank = 2 ∧ b.rank = 2 then a.toBinary64.cmp b.toBinary64 else compare a.rank b.rank

end FieldPlan.Json
