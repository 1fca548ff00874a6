import FieldPlan.Planning.Field
import FieldPlan.Proofs.Schema.Source

/-!
# What a request wants

The selection of a request after directives, authorization and the expansion of fragments, with what
its schema description says of every field. Nothing here is an expression of a plan.

* `Arrangement`, `FieldConfig.arrangement?` : how a list is sorted and sliced by its arguments;
* `Item`, `Wanted` : a field with its validated arguments, and the fields wanted of its value;
* `Planner.wanted` : what a pass wants of a selected field, if anything.
-/

namespace FieldPlan

/-! ## Descriptions of fields -/

/-- How a list is sorted, most significant key first, and which of its items are kept. -/
structure Arrangement where
  order : List (String × Direction) := []
  skip : Option Nat := none
  take : Option Nat := none
deriving Inhabited

def givenCount : Option Json → Option (Option Nat)
  | none | some .null => some none
  | some v => v.toNat?.map some

/-- The slice that arguments ask for: no more than the maximum. -/
def PagingConfig.slice? (p : PagingConfig) (arguments : Dict Json) :
    Option (Option Nat × Option Nat) := do
  let skip ← givenCount (arguments.find? "skip")
  let given ← givenCount (arguments.find? "take")
  match given <|> p.defaultTake <|> p.maxTake, p.maxTake with
  | some n, some max => if max < n then none else pure (skip, some n)
  | take, _ => pure (skip, take)

def sortOrder? (default : Dict Direction) (arguments : Dict Json) :
    Option (List (String × Direction)) :=
  (Extension.Sort.keys default (arguments.find? "sort")).toOption

/-- How arguments arrange the value of a field; `none` if they do not make sense. -/
def FieldConfig.arrangement? (arguments : Dict Json) : FieldConfig → Option Arrangement
  | .short _ => some {}
  | .full d => do
    let order ← (d.sort.map fun default => sortOrder? default arguments).getD (some [])
    let (skip, take) ← (d.paging.map (·.slice? arguments)).getD (some (none, none))
    pure ⟨order, skip, take⟩

def SchemaConfig.source? (c : SchemaConfig) (owner name : String) : Option Resolve :=
  (c.field? owner name).bind (·.source? owner name)

theorem Field.Traits.source? {config : SchemaConfig} {fresh : Nat} {f : Field}
    {fc : FieldConfig} {source : Resolve} (h : f.Traits config fresh fc source) :
    config.source? f.owner f.name = some source := by
  unfold SchemaConfig.source?
  rw [h.found]
  exact h.source_eq

/-- What has a source is a field of the schema. -/
theorem SchemaConfig.exists_field {config : SchemaConfig} {schema : Schema}
    (built : config.build = .ok schema) {owner name : String} {source : Resolve}
    (h : config.source? owner name = some source) :
    ∃ f fc, schema.field? owner name = some f ∧ f ∈ schema.fields ∧ f.owner = owner ∧ f.name = name ∧
      f.Traits config schema.fresh fc source := by
  obtain ⟨fc, hfc, -⟩ := Option.bind_eq_some_iff.mp h
  obtain ⟨f, hf⟩ := build_complete built hfc
  obtain ⟨hmem, rfl, rfl⟩ := (indexed built).field?_ok hf
  obtain ⟨described, -, -⟩ := build_ok built
  obtain ⟨fc, source', traits⟩ := (described f hmem).traits
  obtain rfl : source' = source := Option.some.inj (traits.source?.symm.trans h)
  exact ⟨f, fc, hf, hmem, rfl, rfl, traits⟩

/-! ## Wanted values -/

/-- A value that is wanted under a name: its type, where it comes from, the arguments of its field and
how it is arranged. -/
structure Item where
  name : String
  field : String
  ty : Ty
  source : Resolve
  arguments : Dict Json
  arrangement : Option Arrangement
deriving Inhabited

/-- What is wanted: a value as it is, an object of values, or a list of objects of values. -/
inductive Wanted where
  | leaf (item : Item)
  | object (item : Item) (children : List Wanted)
  | list (item : Item) (children : List Wanted)
deriving Inhabited

def Wanted.item : Wanted → Item
  | .leaf item | .object item _ | .list item _ => item

def Wanted.name (w : Wanted) : String := w.item.name

mutual

/-- No list is wanted as an object. -/
def Wanted.Regular : Wanted → Prop
  | .leaf _ => True
  | .object item children => item.ty.element? = none ∧ Wanted.RegularAll children
  | .list _ children => Wanted.RegularAll children

def Wanted.RegularAll : List Wanted → Prop
  | [] => True
  | w :: ws => Wanted.Regular w ∧ Wanted.RegularAll ws

end

theorem Wanted.regularAll_iff {ws : List Wanted} :
    Wanted.RegularAll ws ↔ ∀ w ∈ ws, w.Regular := by
  induction ws with
  | nil => simp [Wanted.RegularAll]
  | cons w ws ih => rw [Wanted.RegularAll, ih, List.forall_mem_cons]

/-- A part of a service-backed field as a value that is wanted. -/
def Item.ofPart (field : String) (path : List String) : Item where
  name := extractedName field path
  field := field
  ty := .json
  source := .member path
  arguments := []
  arrangement := some {}

namespace Planner

def item (c : Planner) (config : SchemaConfig) (s : Selected) (lineage : List NodeId)
    (path : Path) : Except PlanError Item := do
  let written := (c.tree.mergedArguments s.node lineage).resolve c.assignment
  let arguments ← (c.schema.validate s.field.toFieldDef written).mapError fun fault => ⟨path, fault⟩
  let fc := config.field? s.field.owner s.field.name
  pure {
    name := s.node.name
    field := s.field.name
    ty := s.field.ty
    source := (fc.bind (·.source? s.field.owner s.field.name)).getD (.expr (.null .json))
    arguments := arguments
    arrangement := fc.bind (·.arrangement? arguments) }

/-- Adds what a contribution wants, unless its name is taken. -/
def addWanted (wantChild : Selected → Except PlanError (Option Wanted)) (children : List Wanted) :
    Contribution → Except PlanError (List Wanted)
  | .node s =>
    if children.any (·.name == s.node.name) then pure children
    else do
      match ← wantChild s with
      | some w => pure (children ++ [w])
      | none => pure children
  | .extracted field part =>
    if children.any (·.name == part.name) then pure children
    else
      match part.expr.pathFrom? field.param with
      | some path => pure (children ++ [.leaf (.ofPart field.name path)])
      | none => pure children

/-- What a pass wants of a selected field with fewer than `depth` levels of nodes below it. In the
shape pass the parts of service-backed fields are wanted in place of these, and a field of which
nothing else is wanted is wanted as it is, if services are selected below it. -/
def wanted (c : Planner) (config : SchemaConfig) (pass : Pass) :
    Nat → Bool → Selected → List NodeId → Path → Except PlanError (Option Wanted)
  | 0, _, _, _, path => throw ⟨path, .tooDeep c.options.maxDepth⟩
  | depth + 1, isRoot, s, lineage, path =>
    if pass = .shape && s.field.hasServices then pure none
    else do
      let item ← c.item config s lineage path
      if s.field.shape = .scalar then pure (some (.leaf { item with arrangement := some {} }))
      else
        let parts ← c.expand pass path s.node.children
        let children ← parts.foldlM (addWanted fun child =>
          wanted c config pass depth false child (s.id :: lineage) (path.child child.node.name)) []
        if children.isEmpty then
          pure (if pass = .shape && !isRoot && c.tree.hasServiceDescendants s.id then
            some (.leaf item) else none)
        else
          pure (some (if s.field.shape = .list then .list item children else .object item children))

end Planner

end FieldPlan
