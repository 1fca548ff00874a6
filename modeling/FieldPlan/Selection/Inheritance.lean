import FieldPlan.Selection.Tree

/-!
# Inherited arguments

* `SelectionTree.inherited` : the arguments that a field takes over from the nearest node above that
  selects the field it names, with what that node inherits in its turn;
* `SelectionTree.mergedArguments` : the arguments of a node and, for the names it does not write,
  the inherited ones.

A lineage lists the nodes above a node, the nearest first.
-/

namespace FieldPlan

/-- The entries of the first table and those of the second under other names. -/
def Dict.union {α : Type} (d e : Dict α) : Dict α := e.foldl (fun d x => d.insertNew x.1 x.2) d

/-- The field whose arguments a node inherits. -/
def Node.argumentSource? (n : Node) : Option FieldId := n.field?.bind fun f => f.useArgumentsFrom

def Node.selectsField (n : Node) (id : FieldId) : Bool := n.field?.any fun f => f.id == id

namespace SelectionTree

/-- What is inherited from the field `source` along a lineage. -/
def inherited (t : SelectionTree) (source : FieldId) : List NodeId → Arguments
  | [] => []
  | a :: lineage =>
    match t.node? a with
    | none => inherited t source lineage
    | some n =>
      if n.selectsField source then
        match n.argumentSource? with
        | some next => Dict.union n.arguments (inherited t next lineage)
        | none => n.arguments
      else inherited t source lineage

def mergedArguments (t : SelectionTree) (n : Node) (lineage : List NodeId) : Arguments :=
  match n.argumentSource? with
  | some source => Dict.union n.arguments (t.inherited source lineage)
  | none => n.arguments

end SelectionTree

end FieldPlan
