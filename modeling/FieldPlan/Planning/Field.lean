import FieldPlan.Planning.Expansion

/-!
# Planning a field

A field is planned against a context, the expression of its owner's value. In the service pass after
a shape pass the context holds what the shape pass materialized, and what is there is read from
there.

* `Planner.resolveBase` : the expression of a field's own value and its validated arguments;
* `Planner.planChildren` : the children of a node by output name, the first of a name counting;
* `Planner.planNode` : the expression of a node, `none` when it contributes nothing to the pass.
-/

namespace FieldPlan

/-- The pass that is planned, and where. -/
structure Frame where
  pass : Pass
  /-- Whether contexts hold what the shape pass materialized. -/
  contextChanged : Bool
  isRoot : Bool
deriving DecidableEq, Repr, Inhabited

/-- A field that is planned: its context, the nodes above it, the nearest first, and its path. -/
structure Target extends Selected where
  context : Expr
  lineage : List NodeId
  path : Path

def Target.name (t : Target) : String := t.node.name

/-- The expression of a field's own value. -/
structure Base where
  expr : Expr
  /-- Whether it reads a value that the shape pass materialized. -/
  materialized : Bool
  arguments : Dict Json

namespace Planner

/-! ## The value of the field itself -/

/-- The members of a context under which the parts of a field were materialized. -/
def extractedPairs (t : Target) : List (Expr × Expr) :=
  t.field.extracted.filterMap fun part =>
    (t.context.recordMember? part.name).map fun m => (part.expr, m)

/-- The field's expression over a materialized context: the context itself at the root, else the
member of the output name, else the field's expression with its materialized parts read from the
context. -/
def materializedExpr (c : Planner) (t : Target) (frame : Frame) : Planning (Expr × Bool) :=
  if frame.isRoot then pure (t.context, true)
  else
    match t.context.recordMember? t.name with
    | some m => pure (m, true)
    | none => draw do
      let e := t.field.resolve
      let e ← if c.tree.hasAnyServices t.id then e.replaceAll (extractedPairs t) else pure e
      let e ← e.replaceParam t.field.param t.context
      pure (e, false)

def contextExpr (c : Planner) (t : Target) (frame : Frame) : Planning (Expr × Bool) :=
  if frame.contextChanged then c.materializedExpr t frame
  else draw do
    let e ← t.field.resolve.replaceParam t.field.param t.context
    pure (e, false)

/-- Binds the record of arguments, when the expression reads it. -/
def bindArguments (t : Target) (arguments : Dict Json) (e : Expr) : Planning Expr :=
  match t.field.argumentParam with
  | none => pure e
  | some p =>
    if e.mentions p then do
      let bound ← draw (Fresh.param "args" p.ty)
      addConstant bound (.obj arguments)
      draw (e.replaceParam p (.param bound))
    else pure e

/-- Applies the directives of a node to its expression, unknown ones doing nothing. -/
def directExpr (c : Planner) (path : Path) (e : Expr) :
    List DirectiveUse → Planning (Option Expr)
  | [] => pure (some e)
  | use :: rest =>
    match c.schema.directives.find? use.name with
    | none => directExpr c path e rest
    | some d => do
      match ← checkAt path ((d.processExpression e (use.arguments.resolve c.assignment)).mapError
        .badDirective) with
      | some e => directExpr c path e rest
      | none => pure none

/-- The expression of the field's own value, unless a directive prunes it. -/
def resolveBase (c : Planner) (t : Target) (frame : Frame) : Planning (Option Base) := do
  let written := (c.tree.mergedArguments t.node t.lineage).resolve c.assignment
  let arguments ← checkAt t.path (c.schema.validate t.field.toFieldDef written)
  let (e, materialized) ← c.contextExpr t frame
  let e ← bindArguments t arguments e
  match ← c.directExpr t.path e t.node.directives with
  | some e => pure (some ⟨e, materialized, arguments⟩)
  | none => pure none

/-! ## Extensions -/

def site (c : Planner) (t : Target) (base : Base) (frame : Frame) : Site where
  fieldOf owner name := (c.schema.field? owner name).map (·.toFieldDef)
  field := t.field.toFieldDef
  arguments := base.arguments
  path := t.path
  materialized := base.materialized
  servicePass := frame.pass = .services

/-- Runs a hook of an extension. -/
def runHook {α : Type} (path : Path) (x : Extension) (hook : Hook α) : Planning α := fun s =>
  match hook.run s.fresh with
  | .ok (a, fresh) => .ok (a, { s with fresh := fresh })
  | .error (.argument m) => .error ⟨path, .badExtensionArgument m⟩
  | .error (.other m) => .error ⟨path, .extension x.name m⟩

/-- Changes a base expression by all extensions. -/
def preSelection (t : Target) (site : Site) (base : Expr) (item : Option Param) :
    Planning (Expr × Option Param) :=
  t.field.extensions.foldlM (fun (acc : Expr × Option Param) x =>
    runHook t.path x (x.preSelection site acc.1 acc.2)) (base, item)

/-- Changes a base expression and the children by all extensions. -/
def selection (t : Target) (site : Site) (base : Expr) (children : Children)
    (item : Option Param) : Planning (Expr × Children × Option Param) :=
  t.field.extensions.foldlM (fun (acc : Expr × Children × Option Param) x =>
    runHook t.path x (x.selection site acc.1 acc.2.1 acc.2.2)) (base, children, item)

/-- Changes the expression of a scalar field by all extensions. -/
def scalarExpression (t : Target) (site : Site) (e : Expr) : Planning Expr :=
  t.field.extensions.foldlM (fun e x => runHook t.path x (x.scalarExpression site e)) e

/-! ## Children -/

/-- How a child is planned: against a context, below a lineage, at a path. -/
abbrev PlanChild := Selected → Expr → List NodeId → Path → Frame → Planning (Option Expr)

/-- Adds what a contribution gives to the children, unless its name is taken. -/
def addContribution (planChild : PlanChild) (t : Target) (context : Expr) (frame : Frame)
    (children : Children) : Contribution → Planning Children
  | .node s =>
    if children.contains s.node.name then pure children
    else do
      match ← planChild s context (t.id :: t.lineage) (t.path.child s.node.name) frame with
      | some e => pure (children.insert s.node.name e)
      | none => pure children
  | .extracted field part =>
    if children.contains part.name then pure children
    else do
      let e ← draw (part.expr.replaceParam field.param context)
      pure (children.insert part.name e)

def planChildren (c : Planner) (planChild : PlanChild) (t : Target) (context : Expr)
    (frame : Frame) : Planning Children := do
  let parts ← StateT.lift (c.expand frame.pass t.path t.node.children)
  parts.foldlM (addContribution planChild t context { frame with isRoot := false }) []

/-- Whether a field whose children all need services still hands its value to the service pass. -/
def carries (c : Planner) (t : Target) (frame : Frame) : Bool :=
  frame.pass = .shape && !frame.isRoot && c.tree.hasServiceDescendants t.id

/-! ## Kinds of fields -/

/-- A scalar field. -/
def planScalar (c : Planner) (t : Target) (frame : Frame) : Planning (Option Expr) := do
  match ← c.resolveBase t frame with
  | none => pure none
  | some base => do
    let e ← scalarExpression t (c.site t base frame) base.expr
    let e ← bindServices c.registered t.path e
    pure (some e)

/-- Evaluates a base expression once and builds the record of the children unless it is null. -/
def wrapOnce (c : Planner) (t : Target) (site : Site) (base : Expr) (children : Children)
    (frame : Frame) : Planning Expr := do
  let bound ← bindServices c.registered t.path base
  let wrap ← draw (Fresh.param t.name bound.ty)
  let pairs := [(base, Expr.param wrap), (bound, Expr.param wrap)]
  let children ← children.mapM fun child => draw do
    let e ← child.2.replaceAll pairs
    let e ← if frame.contextChanged then e.replaceParamsByType base.ty (.param wrap) else pure e
    pure (child.1, e)
  let (_, children, _) ← selection t site (.param wrap) children none
  pure (.letIn wrap bound (.nullGuarded (.param wrap) (.record t.name children)))

/-- An object field. -/
def planObject (c : Planner) (planChild : PlanChild) (t : Target) (frame : Frame) :
    Planning (Option Expr) := do
  match ← c.resolveBase t frame with
  | none => pure none
  | some base => do
    let site := c.site t base frame
    let (e, _) ← preSelection t site base.expr none
    let children ← c.planChildren planChild t e frame
    if children.isEmpty then
      pure (if c.carries t frame then some e else none)
    else if (frame.pass = .services && !e.services.isEmpty) ||
        (frame.isRoot && e.isConstruction) then
      let e ← c.wrapOnce t site e children frame
      pure (some e)
    else do
      let (e, children, _) ← selection t site e children none
      let built := Expr.record t.name children
      pure (some (if e.ty.nullable && !e.isConstruction then .nullGuarded e built else built))

/-- A list of entities that comes from a service. -/
def selectOnce (c : Planner) (t : Target) (list : Expr) (item : Param) (body : Expr) :
    Planning Expr := do
  let bound ← bindServices c.registered t.path list
  if bound.ty.nullable then do
    let wrap ← draw (Fresh.param t.name bound.ty)
    pure (.letIn wrap bound (.nullGuarded (.param wrap) (.select (.param wrap) item body)))
  else pure (.select bound item body)

/-- A list field. -/
def planList (c : Planner) (planChild : PlanChild) (t : Target) (frame : Frame) :
    Planning (Option Expr) := do
  match ← c.resolveBase t frame with
  | none => pure none
  | some base =>
    match base.expr.ty.element? with
    | none => refuse t.path (.notAList t.field.name base.expr.ty)
    | some element => do
      let item ← draw (Fresh.param t.name element)
      let site := c.site t base frame
      let (list, changed) ← preSelection t site base.expr (some item)
      let item := changed.getD item
      let children ← c.planChildren planChild t (.param item) frame
      if children.isEmpty then
        pure (if c.carries t frame then some list else none)
      else do
        let (list, children, changed) ← selection t site list children (some item)
        let item := changed.getD item
        let body := Expr.record t.name children
        if frame.pass = .services && !list.services.isEmpty then
          let e ← c.selectOnce t list item body
          pure (some e)
        else
          let select := Expr.select list item body
          pure (some (if base.expr.ty.nullable then .nullGuarded base.expr select else select))

/-- A selected field; one backed by a service is no part of the shape pass. -/
def planField (c : Planner) (planChild : PlanChild) (t : Target) (frame : Frame) :
    Planning (Option Expr) :=
  if frame.pass = .shape && t.field.hasServices then pure none
  else
    match t.field.shape with
    | .scalar => c.planScalar t frame
    | .object => c.planObject planChild t frame
    | .list => c.planList planChild t frame

/-- A node with fewer than `depth` levels of nodes below it. -/
def planNode (c : Planner) : Nat → PlanChild
  | 0, _, _, _, path, _ => refuse path (.tooDeep c.options.maxDepth)
  | depth + 1, s, context, lineage, path, frame =>
    c.planField (planNode c depth) ⟨s, context, lineage, path⟩ frame

end Planner

end FieldPlan
