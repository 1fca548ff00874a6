import FieldPlan.Json.Decode
import FieldPlan.Json.Reader
import FieldPlan.Planning.Error
import FieldPlan.Selection.Tree

/-!
# Requests

* `Request` : the selections and fragments of an operation as data; a selection is a field, else the
  spread of a named fragment, else an inline fragment;
* `Request.decode`, `Request.read` : from a JSON document and from its text;
* `Request.build` : the selection tree, when every field and type that is named exists.
-/

namespace FieldPlan

structure DirectiveRequest where
  name : String
  arguments : Dict Json
deriving Inhabited

structure SelectionRequest where
  field : Option String
  outputName : Option String
  spread : Option String
  on : Option String
  arguments : Dict Json
  directives : List DirectiveRequest
  selections : List SelectionRequest
deriving Inhabited

structure FragmentRequest where
  name : String
  on : String
  selections : List SelectionRequest
deriving Inhabited

structure Request where
  operation : OperationKind
  selections : List SelectionRequest
  fragments : List FragmentRequest
deriving Inhabited

/-! ## Decoding -/

open Decode

def DirectiveRequest.decode : Decoder DirectiveRequest := fun d => do
  let ms ← record ["name", "arguments"] false d
  pure {
    name := ← required ms "name" text
    arguments := ← optional ms "arguments" (table value) [] }

/-- Decodes a selection that nests at most `depth` others. -/
def SelectionRequest.decode : Nat → Decoder SelectionRequest
  | 0, _ => none
  | depth + 1, d => do
    let ms ← record
      ["field", "alias", "spread", "on", "arguments", "directives", "selections"] false d
    pure {
      field := ← optional ms "field" (nullable text) none
      outputName := ← optional ms "alias" (nullable text) none
      spread := ← optional ms "spread" (nullable text) none
      on := ← optional ms "on" (nullable text) none
      arguments := ← optional ms "arguments" (table value) []
      directives := ← optional ms "directives" (items DirectiveRequest.decode) []
      selections := ← optional ms "selections" (items (SelectionRequest.decode depth)) [] }

def FragmentRequest.decode (depth : Nat) : Decoder FragmentRequest := fun d => do
  let ms ← record ["name", "on", "selections"] false d
  pure {
    name := ← required ms "name" text
    on := ← required ms "on" text
    selections := ← optional ms "selections" (items (SelectionRequest.decode depth)) [] }

def decodeKind : Decoder OperationKind := choice [("query", .query), ("mutation", .mutation)]

def Request.decode : Decoder Request := fun d => do
  let depth := d.depth
  let ms ← record ["operation", "selections", "fragments"] false d
  pure {
    operation := ← optional ms "operation" decodeKind .query
    selections := ← optional ms "selections" (items (SelectionRequest.decode depth)) []
    fragments := ← optional ms "fragments" (items (FragmentRequest.decode depth)) [] }

def Request.read (text : String) : Option Request := (Document.read text).bind decode

/-! ## Building -/

def DirectiveRequest.use (d : DirectiveRequest) : DirectiveUse :=
  ⟨d.name, ArgumentValue.ofMembers d.arguments⟩

/-- Where a node is added. -/
inductive Attach where
  | root
  | child (parent : NodeId)
  | fragment (name : String)

/-- Computations that add nodes to a tree. -/
abbrev Growing := StateT SelectionTree (Except PlanError)

def faultAt {α : Type} (path : Path) (fault : PlanFault) : Growing α := throw ⟨path, fault⟩

def Attach.add (attach : Attach) (path : Path) (node : Node) : Growing NodeId := do
  let tree ← get
  match attach with
  | .root =>
    let (id, tree) := tree.addRoot node
    set tree
    pure id
  | .child parent =>
    match tree.addChild parent node with
    | (some id, tree) =>
      set tree
      pure id
    | (none, _) => faultAt path (.missingNode parent)
  | .fragment name =>
    match tree.addFragmentChild name node with
    | (some id, tree) =>
      set tree
      pure id
    | (none, _) => faultAt path (.unknownFragment name)

/-- A node, the entity that its children are selected on, if any, and the path of the children. -/
structure Resolved where
  node : Node
  owner : Option String
  path : Path

/-- The node of a selected field; what selects an entity needs children, and nothing else has any.
-/
def resolveField (schema : Schema) (owner name : String) (outputName : Option String) (leaf : Bool)
    (path : Path) : Except PlanError Resolved :=
  match schema.field? owner name with
  | none => throw ⟨path.child name, .unknownField name owner⟩
  | some f =>
    let node := Node.ofField f
    let node := { node with name := outputName.getD node.name }
    let path := path.child node.name
    match f.shape, leaf with
    | .scalar, false => throw ⟨path, .needlessSelection name f.ty⟩
    | .object, true | .list, true => throw ⟨path, .noSelection name f.ty⟩
    | _, _ => pure ⟨node, f.entity, path⟩

/-- The node of an inline fragment; its type condition is the type that it stands in. -/
def resolveInline (schema : Schema) (owner : String) (on : Option String) (path : Path) :
    Except PlanError Resolved :=
  let on := on.getD owner
  if !schema.types.contains on then throw ⟨path, .inlineOnUnknownType on⟩
  else if on != owner then throw ⟨path, .inlineOnOtherType on owner⟩
  else pure ⟨.ofInline, some on, path⟩

def resolveSelection (schema : Schema) (owner : String) (field outputName spread on : Option String)
    (leaf : Bool) (path : Path) : Except PlanError Resolved :=
  match field, spread with
  | some name, _ => resolveField schema owner name outputName leaf path
  | none, some fragment => pure ⟨.ofSpread fragment, none, path⟩
  | none, none => resolveInline schema owner on path

mutual

def addSelection (schema : Schema) (attach : Attach) (owner : String) (path : Path) :
    SelectionRequest → Growing Unit
  | ⟨field, outputName, spread, on, arguments, directives, selections⟩ => do
    let r ← StateT.lift
      (resolveSelection schema owner field outputName spread on selections.isEmpty path)
    let id ← attach.add path { r.node with
      arguments := ArgumentValue.ofMembers arguments
      directives := directives.map (·.use) }
    match r.owner with
    | some entity => addSelections schema (.child id) entity r.path selections
    | none => pure ()

def addSelections (schema : Schema) (attach : Attach) (owner : String) (path : Path) :
    List SelectionRequest → Growing Unit
  | [] => pure ()
  | s :: rest => do
    addSelection schema attach owner path s
    addSelections schema attach owner path rest

end

namespace Request

def declare (schema : Schema) (tree : SelectionTree) (f : FragmentRequest) :
    Except PlanError SelectionTree :=
  if schema.types.contains f.on then pure (tree.addFragment f.name f.on)
  else throw ⟨[], .fragmentOnUnknownType f.name f.on⟩

/-- The selection tree of an operation: the fragments come first. -/
def build (r : Request) (schema : Schema) : Except PlanError SelectionTree := do
  match schema.rootType r.operation with
  | none => throw ⟨[], .noRequestRoot r.operation⟩
  | some root =>
    let declared ← r.fragments.foldlM (declare schema) (.empty r.operation)
    let grow : Growing Unit := do
      for f in r.fragments do
        addSelections schema (.fragment f.name) f.on ["..." ++ f.name] f.selections
      addSelections schema .root root [] r.selections
    let (_, tree) ← grow.run declared
    pure tree

end Request

end FieldPlan
