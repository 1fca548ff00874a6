import FieldPlan.Planning.State
import FieldPlan.Schema.Validation

/-!
# Expansion of selections

* `Planner` : what a request is planned with: the schema, the tree, the variables, who may see which
  field, the registered services and the options;
* `Planner.keep` : the node that stands for a node once its directives were applied, if any;
* `Planner.expand` : what a list of nodes contributes to a pass, fragments replaced in place by what
  they hold and pruned nodes left out.
-/

namespace FieldPlan

/-- Who may see a field. -/
abbrev Authorizer := Field → Bool

/-- Every field is seen. -/
def Authorizer.all : Authorizer := fun _ => true

/-- A field is seen that asks for no role or for one of the given ones. -/
def Authorizer.ofRoles (roles : List String) : Authorizer := fun f =>
  f.roles.isEmpty || f.roles.any roles.contains

/-- How an operation is planned. -/
structure PlanOptions where
  /-- Whether what needs services goes into a second pass. -/
  separately : Bool := true
  /-- The deepest nesting below a root field. -/
  maxDepth : Nat := 64
deriving Repr, Inhabited

/-- What a request is planned with. -/
structure Planner where
  schema : Schema
  tree : SelectionTree
  assignment : Dict Json
  authorizer : Authorizer
  /-- The registered services, when they are known. -/
  registered : Option (ServiceName → Bool)
  options : PlanOptions

inductive Pass where
  | shape
  | services
deriving DecidableEq, Repr, Inhabited

/-- A node that selects a field. -/
structure Selected where
  id : NodeId
  node : Node
  field : Field

/-- What a node contributes to the selection that it stands in: itself, or a part of the expression
of a service-backed field. -/
inductive Contribution where
  | node (s : Selected)
  | extracted (field : FieldDef) (part : Extracted)

def Selected.contributions (s : Selected) : Pass → List Contribution
  | .services => [.node s]
  | .shape =>
    if s.field.hasServices then s.field.extracted.map (.extracted s.field.toFieldDef)
    else [.node s]

namespace Planner

def node (c : Planner) (path : Path) (id : NodeId) : Except PlanError Node :=
  match c.tree.node? id with
  | some n => pure n
  | none => throw ⟨path, .missingNode id⟩

/-- Applies one directive to the node that stands for the one it was written on. -/
def applyDirective (c : Planner) (path : Path) (location : Location) (current : NodeId)
    (use : DirectiveUse) : Except PlanError (Option NodeId) :=
  match c.schema.directives.find? use.name with
  | none => throw ⟨path, .unknownDirective use.name⟩
  | some d =>
    if d.locations.contains location then
      (d.processField current (use.arguments.resolve c.assignment)).mapError
        fun m => ⟨path, .badDirective m⟩
    else throw ⟨path, .misplacedDirective use.name location⟩

/-- The node that stands for a node once its directives were applied one after the other. -/
def keep (c : Planner) (path : Path) (location : Location) (current : NodeId) :
    List DirectiveUse → Except PlanError (Option NodeId)
  | [] => pure (some current)
  | use :: rest => do
    match ← c.applyDirective path location current use with
    | some next => keep c path location next rest
    | none => pure none

/-- The path of a node below a path: fragments have none of their own. -/
def nodePath (path : Path) (n : Node) : Path :=
  match n.selects with
  | .field _ => path.child n.name
  | _ => path

/-- What a node contributes; `spreading` are the fragments that are being expanded around it. -/
def expandNode (c : Planner) (pass : Pass) (path : Path) :
    Nat → List String → NodeId → Except PlanError (List Contribution)
  | 0, _, _ => throw ⟨path, .endlessExpansion⟩
  | fuel + 1, spreading, id => do
    let written ← c.node path id
    let here := nodePath path written
    match ← c.keep here written.location id written.directives with
    | none => pure []
    | some id =>
      let n ← c.node here id
      match n.selects with
      | .spread name =>
        match c.tree.fragments.find? name with
        | none => throw ⟨here, .unknownFragment name⟩
        | some f =>
          if spreading.contains name then throw ⟨here, .cyclicFragment name⟩
          else
            let parts ← f.children.mapM (expandNode c pass path fuel (name :: spreading))
            pure parts.flatten
      | .inline =>
        let parts ← n.children.mapM (expandNode c pass path fuel spreading)
        pure parts.flatten
      | .field f =>
        if c.authorizer f then pure (Selected.contributions ⟨id, n, f⟩ pass) else pure []

/-- The number of steps of an expansion: one that nests deeper comes to the same node inside the
same fragments twice and never ends. -/
def expansionDepth (c : Planner) : Nat := c.tree.size * (c.tree.fragments.length + 1) + 1

/-- What nodes contribute to a pass. -/
def expand (c : Planner) (pass : Pass) (path : Path) (ids : List NodeId) :
    Except PlanError (List Contribution) := do
  let parts ← ids.mapM (c.expandNode pass path c.expansionDepth [])
  pure parts.flatten

def expandRoot (c : Planner) (root : NodeId) : Except PlanError (List Selected) := do
  let parts ← c.expand .services [] [root]
  pure (parts.filterMap fun
    | .node s => some s
    | .extracted _ _ => none)

end Planner

end FieldPlan
