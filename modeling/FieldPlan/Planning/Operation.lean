import FieldPlan.Planning.Field

/-!
# Planning an operation

* `FieldError`, `PlannedOperation` : an error of a root field; the planned root fields and the
  errors of the others;
* `Planner.planRoot` : the one or two plans of a root field;
* `Planner.plan` : the plans of all root fields; an error in the schema ends the operation, any
  other error only its root field.
-/

namespace FieldPlan

/-- An error of a root field. -/
structure FieldError where
  field : String
  error : PlanError

def FieldError.text (e : FieldError) : String :=
  e.error.kind.text ++ " at " ++ e.error.path.text ++ ": " ++ e.error.message

/-- The planned root fields and the errors of the others. -/
structure PlannedOperation where
  kind : OperationKind
  fields : List PlannedField
  errors : List FieldError

namespace Planner

/-- Computations that draw fresh parameters and may fail. -/
abbrev Drawing := StateT Nat (Except PlanError)

def planPass (c : Planner) (s : Selected) (root : Param) (frame : Frame) :
    Drawing (Option Plan) := fun fresh => do
  let planned := c.planNode (c.options.maxDepth + 1) s (.param root) [] [s.node.name] frame
  let (body, state) ← planned.run { fresh := fresh }
  pure (body.map fun body => ⟨root, body, state.bindings, state.services⟩, state.fresh)

def planServicePass (c : Planner) (s : Selected) (data : Param) :
    Option Plan → Drawing (Option Plan)
  | some shape => do
    let materialized ← (Fresh.param s.node.name shape.resultTy).lift
    c.planPass s materialized ⟨.services, true, true⟩
  | none => c.planPass s data ⟨.services, false, true⟩

/-- The plans of a root field: a second pass is needed if services are selected. -/
def planRoot (c : Planner) (rootType : String) (s : Selected) : Drawing PlannedField := do
  let data ← (Fresh.param "data" (.entity rootType false)).lift
  if !c.options.separately then
    let plan ← c.planPass s data ⟨.services, false, true⟩
    pure ⟨s.node.name, plan, none⟩
  else
    let shape ← c.planPass s data ⟨.shape, false, true⟩
    if c.tree.hasAnyServices s.id then
      let service ← c.planServicePass s data shape
      pure ⟨s.node.name, shape, service⟩
    else pure ⟨s.node.name, shape, none⟩

/-- The root fields planned so far. -/
structure Progress where
  fresh : Nat
  fields : List PlannedField := []
  errors : List FieldError := []

/-- Notes an error of a root field, unless it ends the operation. -/
def Progress.collect (p : Progress) (field : String) (e : PlanError) : Except PlanError Progress :=
  if e.isFatal then throw e else pure { p with errors := p.errors ++ [⟨field, e⟩] }

/-- Plans a root field unless one of its name is planned. -/
def addRootField (c : Planner) (rootType : String) (p : Progress) (s : Selected) :
    Except PlanError Progress :=
  if p.fields.any (·.name == s.node.name) then pure p
  else
    match (c.planRoot rootType s).run p.fresh with
    | .ok (field, fresh) => pure { p with fresh := fresh, fields := p.fields ++ [field] }
    | .error e => p.collect s.node.name e

def addRoot (c : Planner) (rootType : String) (p : Progress) (root : NodeId) :
    Except PlanError Progress :=
  match c.expandRoot root with
  | .ok selected => selected.foldlM (c.addRootField rootType) p
  | .error e => p.collect ((c.tree.node? root).elim "" (·.name)) e

def plan (c : Planner) : Except PlanError PlannedOperation :=
  match c.schema.rootType c.tree.kind with
  | none => throw ⟨[], .noOperationRoot c.tree.kind⟩
  | some rootType => do
    let p ← c.tree.roots.foldlM (c.addRoot rootType) { fresh := c.schema.fresh }
    pure ⟨c.tree.kind, p.fields, p.errors⟩

end Planner

end FieldPlan
