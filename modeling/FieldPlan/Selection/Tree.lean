import FieldPlan.Schema.Basic
import FieldPlan.Selection.Argument

/-!
# Selection trees

The nodes of a tree are numbered in the order in which they were added; links between them are
numbers.

* `Node` : a selected field, the spread of a named fragment or an inline fragment;
* `SelectionTree` : the nodes, the roots and the named fragments; `addRoot`, `addChild`,
  `addFragment` and `addFragmentChild` build it, and a node comes without its earlier links;
* `SelectionTree.ancestors` : the nodes above a node, the nearest first;
* `SelectionTree.hasAnyServices`, `SelectionTree.hasServiceDescendants` : whether a search at or
  below a node, through fragments too, finds a field backed by a service; it enters each fragment
  once and passes over the later spreads of that fragment with all that is below them.
-/

namespace FieldPlan

/-- What kind of result a field selects. -/
inductive FieldShape where
  | scalar
  | object
  | list
deriving DecidableEq, Repr, Inhabited

/-- The kind of result of a field: lists of entities, entities, and all else. -/
def FieldDef.shape (f : FieldDef) : FieldShape :=
  if f.ty.selectsList then .list
  else if f.entity.isSome then .object
  else .scalar

/-- What a node selects. -/
inductive Selects where
  | field (f : Field)
  | spread (fragment : String)
  | inline

/-- A node of a selection tree; its name is the output name of a field. -/
structure Node where
  name : String
  selects : Selects
  children : List NodeId := []
  parent : Option NodeId := none
  arguments : Arguments := []
  directives : List DirectiveUse := []

namespace Node

def ofField (f : Field) : Node := { name := f.name, selects := .field f }

def ofSpread (fragment : String) : Node :=
  { name := "..." ++ fragment, selects := .spread fragment }

def ofInline : Node := { name := "...", selects := .inline }

def field? (n : Node) : Option Field :=
  match n.selects with
  | .field f => some f
  | _ => none

def spread? (n : Node) : Option String :=
  match n.selects with
  | .spread fragment => some fragment
  | _ => none

def hasServices (n : Node) : Bool := n.field?.any fun f => f.hasServices

/-- Where the directives of the node stand. -/
def location (n : Node) : Location :=
  match n.selects with
  | .field _ => .field
  | .spread _ => .fragmentSpread
  | .inline => .inlineFragment

end Node

/-- A named fragment with its type condition and its top-level selections. -/
structure Fragment where
  name : String
  on : String
  children : List NodeId
deriving Inhabited

/-- A selection tree. -/
structure SelectionTree where
  kind : OperationKind
  nodes : Array Node
  roots : List NodeId
  fragments : Dict Fragment

namespace SelectionTree

/-! ## Building -/

def empty (kind : OperationKind) : SelectionTree := ⟨kind, #[], [], []⟩

def size (t : SelectionTree) : Nat := t.nodes.size

def node? (t : SelectionTree) (id : NodeId) : Option Node := t.nodes[id]?

/-- Adds a node below `parent`, without linking it from there. -/
def push (t : SelectionTree) (parent : Option NodeId) (node : Node) : SelectionTree :=
  { t with nodes := t.nodes.push { node with parent := parent, children := [] } }

def addRoot (t : SelectionTree) (node : Node) : NodeId × SelectionTree :=
  (t.size, { t.push none node with roots := t.roots ++ [t.size] })

/-- Adds a child to a node, if there is that node. -/
def addChild (t : SelectionTree) (parent : NodeId) (node : Node) : Option NodeId × SelectionTree :=
  if parent < t.size then
    let linked := t.nodes.modify parent fun p => { p with children := p.children ++ [t.size] }
    (some t.size, { t with nodes := linked }.push (some parent) node)
  else (none, t)

/-- Declares a fragment; a known one stays as it is. -/
def addFragment (t : SelectionTree) (name on : String) : SelectionTree :=
  { t with fragments := t.fragments.insertNew name ⟨name, on, []⟩ }

/-- Adds a top-level selection to a fragment, if it is declared. -/
def addFragmentChild (t : SelectionTree) (fragment : String) (node : Node) :
    Option NodeId × SelectionTree :=
  if t.fragments.contains fragment then
    let pushed := t.push none node
    (some t.size, { pushed with
      fragments := pushed.fragments.modify fragment fun f =>
        { f with children := f.children ++ [t.size] } })
  else (none, t)

/-! ## Navigation -/

def children (t : SelectionTree) (id : NodeId) : List NodeId :=
  (t.node? id).elim [] (·.children)

/-- The nodes above a node, the nearest first; a node is always above the nodes added later. -/
def ancestors (t : SelectionTree) (id : NodeId) : List NodeId :=
  match (t.node? id).bind (·.parent) with
  | none => []
  | some p => if p < id then p :: ancestors t p else []
termination_by id

/-! ## Services -/

/-- The top-level selections of a fragment. -/
def fragmentChildren (t : SelectionTree) (name : String) : List NodeId :=
  (t.fragments.find? name).elim [] (·.children)

/-- What a search that has entered fragments goes on to from a node, and the fragments entered then:
a spread adds the selections of its fragment after its own children, and a spread of a fragment
entered before leads nowhere. -/
def below (t : SelectionTree) (entered : List String) (n : Node) : List NodeId × List String :=
  match n.spread? with
  | none => (n.children, entered)
  | some name =>
    if entered.contains name then ([], entered)
    else (n.children ++ t.fragmentChildren name, name :: entered)

/-- Searches a node and what is selected below it through `depth` levels, left to right: `none` as
soon as a field backed by a service is found, else the fragments entered so far. -/
def search (t : SelectionTree) : Nat → List String → NodeId → Option (List String)
  | 0, entered, _ => some entered
  | depth + 1, entered, id =>
    match t.node? id with
    | none => some entered
    | some n =>
      if n.hasServices then none
      else
        let (ids, entered) := t.below entered n
        ids.foldlM (search t depth) entered

/-- A bound on the levels of a search: children are added after their parents, and each fragment is
entered at most once. -/
def searchDepth (t : SelectionTree) : Nat := t.size * (t.fragments.length + 1) + 1

/-- Whether a search from nodes, which enters each fragment once, finds a field backed by a service.
-/
def findsServices (t : SelectionTree) (ids : List NodeId) : Bool :=
  (ids.foldlM (t.search t.searchDepth) []).isNone

/-- Whether a field backed by a service is found at or below a node. -/
def hasAnyServices (t : SelectionTree) (id : NodeId) : Bool := t.findsServices [id]

/-- Whether a field backed by a service is found below a node. -/
def hasServiceDescendants (t : SelectionTree) (id : NodeId) : Bool :=
  t.findsServices (t.children id)

end SelectionTree

end FieldPlan
