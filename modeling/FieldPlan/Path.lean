/-!
# Output paths

* `Path` : the output names from a root field down to a node; the empty path is the operation.
-/

namespace FieldPlan

/-- The output names from a root field down to a node. -/
abbrev Path := List String

def Path.child (path : Path) (name : String) : Path := path ++ [name]

def Path.text (path : Path) : String :=
  if path.isEmpty then "<operation>" else ".".intercalate path

end FieldPlan
