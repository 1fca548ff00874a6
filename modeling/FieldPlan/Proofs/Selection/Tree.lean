import FieldPlan.Proofs.Planning.Expansion
import FieldPlan.Proofs.Schema.Indexed
import FieldPlan.Selection.Request

/-!
# Trees of requests

* `SelectionTree.grow`, `Attach.add_ok` : adding a node at a place, and what requests do with it;
* `Attach.Keeps` : what adding nodes keeps; so does adding selections (`Attach.Keeps.addSelections`);
* `Request.build_ok`, `Request.base_keeps` : the tree of a request grows from the tree that holds its
  fragments;
* `Request.build_over` : the tree of a request selects fields of the schema.
-/

namespace FieldPlan

variable {schema : Schema} {tree tree' : SelectionTree} {path : Path} {node : Node}

/-! ## Adding nodes -/

/-- A node that selects a field of the schema, if any. -/
def Node.Over (n : Node) (schema : Schema) : Prop := ∀ f, n.selects = .field f → f ∈ schema.fields

/-- A node that selects a field which the schema has under an owner and a name, if any. -/
def Node.Found (n : Node) (schema : Schema) : Prop :=
  ∀ f, n.selects = .field f → ∃ owner name, schema.field? owner name = some f

theorem Node.Found.over (h : node.Found schema) (indexed : schema.Indexed) : node.Over schema := by
  intro f hf
  obtain ⟨owner, name, found⟩ := h f hf
  exact (indexed.field?_ok found).1

/-- Adds a node at a place, if there is that place, and answers its number. -/
def SelectionTree.grow (t : SelectionTree) (place : Attach) (node : Node) :
    Option NodeId × SelectionTree :=
  match place with
  | .root => (some (t.addRoot node).1, (t.addRoot node).2)
  | .child parent => t.addChild parent node
  | .fragment name => t.addFragmentChild name node

theorem Attach.add_ok {attach : Attach} {id : NodeId} :
    attach.add path node tree = .ok (id, tree') ↔ tree.grow attach node = (some id, tree') := by
  have run : ∃ e, attach.add path node tree =
      (tree.grow attach node).1.elim (.error e) fun id => .ok (id, (tree.grow attach node).2) := by
    unfold Attach.add SelectionTree.grow
    rw [run_get]
    cases attach with
    | root => exact ⟨⟨path, .missingNode 0⟩, rfl⟩
    | child parent =>
      refine ⟨⟨path, .missingNode parent⟩, ?_⟩
      dsimp only
      rcases tree.addChild parent node with ⟨_ | _, _⟩ <;> rfl
    | fragment name =>
      refine ⟨⟨path, .unknownFragment name⟩, ?_⟩
      dsimp only
      rcases tree.addFragmentChild name node with ⟨_ | _, _⟩ <;> rfl
  obtain ⟨e, run⟩ := run
  rw [run]
  rcases tree.grow attach node with ⟨_ | _, _⟩ <;> simp

namespace SelectionTree

variable {id : NodeId}

def link (t : SelectionTree) (parent child : NodeId) : SelectionTree :=
  { t with nodes := t.nodes.modify parent fun p => { p with children := p.children ++ [child] } }

theorem addChild_ok {parent : NodeId} (h : tree.addChild parent node = (some id, tree')) :
    parent < tree.size ∧ id = tree.size ∧
      tree' = (tree.link parent tree.size).push (some parent) node := by
  unfold addChild at h
  split at h
  · rename_i hp
    cases h
    exact ⟨hp, rfl, rfl⟩
  · cases h

theorem addChild_of_lt {parent : NodeId} (h : parent < tree.size) (node : Node) :
    ∃ tree', tree.addChild parent node = (some tree.size, tree') := ⟨_, if_pos h⟩

theorem addFragmentChild_ok {name : String} (h : tree.addFragmentChild name node = (some id, tree')) :
    ∃ f, tree.fragments.find? name = some f ∧ id = tree.size ∧ tree' = { tree.push none node with
      fragments := tree.fragments.insert name { f with children := f.children ++ [tree.size] } } := by
  unfold addFragmentChild at h
  split at h
  · rename_i known
    rw [Dict.contains_iff] at known
    obtain ⟨f, hf⟩ := Option.ne_none_iff_exists'.mp (mt (Dict.find?_eq_none _ _).mp (not_not.mpr known))
    refine ⟨f, hf, ?_⟩
    cases h
    refine ⟨rfl, ?_⟩
    rw [Dict.modify, show (tree.push none node).fragments.find? name = some f from hf]
    rfl
  · cases h

theorem addFragmentChild_refused {name : String} (h : name ∉ tree.fragments.keys) :
    tree.addFragmentChild name node = (none, tree) := if_neg (mt (Dict.contains_iff _ _).mp h)

theorem addFragmentChild_cases (tree : SelectionTree) (name : String) (node : Node) :
    (∃ tree', tree.addFragmentChild name node = (some tree.size, tree')) ∨
      tree.addFragmentChild name node = (none, tree) := by
  by_cases known : name ∈ tree.fragments.keys
  · exact .inl ⟨_, if_pos ((Dict.contains_iff _ _).mpr known)⟩
  · exact .inr (addFragmentChild_refused known)

end SelectionTree

namespace SelectionTree.Over

theorem push (h : tree.Over schema) (hn : node.Over schema) (parent : Option NodeId) :
    (tree.push parent node).Over schema := by
  intro id n f hid hf
  unfold node? SelectionTree.push at hid
  dsimp only at hid
  rw [Array.getElem?_push] at hid
  split at hid
  · cases hid
    exact hn f hf
  · exact h id n f hid hf

theorem link (h : tree.Over schema) (parent child : NodeId) : (tree.link parent child).Over schema := by
  intro id n f hid hf
  unfold node? SelectionTree.link at hid
  dsimp only at hid
  rw [Array.getElem?_modify] at hid
  split at hid
  · obtain ⟨p, hp, rfl⟩ := Option.map_eq_some_iff.mp hid
    exact h id p f hp hf
  · exact h id n f hid hf

theorem grow (h : tree.Over schema) (hn : node.Over schema) {place : Attach} {id : NodeId}
    (hadd : tree.grow place node = (some id, tree')) : tree'.Over schema := by
  cases place with
  | root =>
    cases hadd
    exact h.push hn none
  | child parent =>
    obtain ⟨-, -, rfl⟩ := addChild_ok hadd
    exact (h.link parent tree.size).push hn (some parent)
  | fragment name =>
    obtain ⟨f, -, -, rfl⟩ := addFragmentChild_ok hadd
    exact h.push hn none

end SelectionTree.Over

/-! ## Selections -/

theorem resolveSelection_found {owner : String} {field outputName spread on : Option String}
    {leaf : Bool} {r : Resolved}
    (h : resolveSelection schema owner field outputName spread on leaf path = .ok r) :
    r.node.Found schema := by
  unfold resolveSelection at h
  split at h
  · unfold resolveField at h
    split at h
    · cases h
    · rename_i f hf
      dsimp only at h
      split at h
      · cases h
      · cases h
      · cases h
      · cases h
        rintro _ ⟨⟩
        exact ⟨_, _, hf⟩
  · cases h
    intro f hf
    cases hf
  · unfold resolveInline at h
    dsimp only at h
    split at h
    · cases h
    · split at h
      · cases h
      · cases h
        intro f hf
        cases hf

/-- A node may be added where `A` says, and adding it keeps `P`; then nodes may be added below it. -/
def Attach.Keeps (schema : Schema) (A : Attach → Prop) (P : SelectionTree → Prop) : Prop :=
  ∀ place node id tree tree', A place → P tree → node.Found schema →
    tree.grow place node = (some id, tree') → P tree' ∧ A (.child id)

section Keeping

variable {P : SelectionTree → Prop} {A : Attach → Prop}

mutual

theorem Attach.Keeps.addSelection (step : Attach.Keeps schema A P) {tree tree' : SelectionTree}
    {path : Path} {attach : Attach} {owner : String} {s : SelectionRequest} (hA : A attach)
    (hP : P tree) (hadd : FieldPlan.addSelection schema attach owner path s tree = .ok ((), tree')) :
    P tree' := by
  match s with
  | ⟨field, outputName, spread, on, arguments, directives, selections⟩ =>
    rw [FieldPlan.addSelection] at hadd
    obtain ⟨r, t₁, hlift, h₁⟩ := run_bind_ok.mp hadd
    obtain ⟨hr, ht₁⟩ := run_lift_ok.mp hlift
    obtain rfl : t₁ = tree := ht₁
    obtain ⟨id, t₂, hnode, h₂⟩ := run_bind_ok.mp h₁
    have node : Node.Found { r.node with
        arguments := ArgumentValue.ofMembers arguments
        directives := directives.map (·.use) } schema := resolveSelection_found hr
    obtain ⟨kept, below⟩ := step attach _ id _ t₂ hA hP node (Attach.add_ok.mp hnode)
    obtain ⟨resolved, entity, inside⟩ := r
    cases entity with
    | some entity => exact step.addSelections below kept h₂
    | none =>
      cases h₂
      exact kept

/-- Adding selections keeps what adding nodes keeps. -/
theorem Attach.Keeps.addSelections (step : Attach.Keeps schema A P) {tree tree' : SelectionTree}
    {path : Path} {attach : Attach} {owner : String} {ss : List SelectionRequest} (hA : A attach)
    (hP : P tree)
    (hadd : FieldPlan.addSelections schema attach owner path ss tree = .ok ((), tree')) :
    P tree' := by
  match ss with
  | [] =>
    cases hadd
    exact hP
  | s :: rest =>
    rw [FieldPlan.addSelections] at hadd
    obtain ⟨_, t₁, hs, h₁⟩ := run_bind_ok.mp hadd
    exact step.addSelections hA (step.addSelection hA hP hs) h₁

end

end Keeping

/-! ## Requests -/

def Request.base (r : Request) (schema : Schema) : Except PlanError SelectionTree := do
  let declared ← r.fragments.foldlM (declare schema) (.empty r.operation)
  let (_, tree) ← (r.fragments.foldlM (fun _ f =>
    addSelections schema (.fragment f.name) f.on ["..." ++ f.name] f.selections) ()).run declared
  pure tree

/-- The tree of a request grows from the tree that holds its fragments. -/
theorem Request.build_ok {r : Request} :
    r.build schema = .ok tree ↔ ∃ root base, schema.rootType r.operation = some root ∧
      r.base schema = .ok base ∧
        addSelections schema .root root [] r.selections base = .ok ((), tree) := by
  unfold Request.build Request.base
  cases schema.rootType r.operation with
  | none => simp [throw, throwThe, MonadExceptOf.throw]
  | some root =>
    simp only [bind_pure_comp, List.forIn_yield_eq_foldlM, Option.some.injEq, exists_and_left,
      exists_eq_left']
    cases r.fragments.foldlM (Request.declare schema) (.empty r.operation) with
    | error e => simp [Bind.bind, Except.bind]
    | ok declared =>
      have unit : ∀ m : Growing Unit, (fun _ => PUnit.unit) <$> m = m := id_map
      simp only [unit, map_eq_pure_bind, bind_ok]
      constructor
      · rintro ⟨_, ⟨⟩, ⟨_, t⟩, hgrow, h⟩
        cases h
        obtain ⟨_, base, hbase, hroots⟩ := run_bind_ok.mp hgrow
        exact ⟨base, ⟨_, rfl, _, hbase, rfl⟩, hroots⟩
      · rintro ⟨base, ⟨_, ⟨⟩, ⟨_, t⟩, hbase, h⟩, hroots⟩
        cases h
        exact ⟨_, rfl, _, run_bind_ok.mpr ⟨_, t, hbase, hroots⟩, rfl⟩

/-- What holds of the tree in which the fragments of a request are declared, and what adding nodes to
fragments keeps, holds of the tree that holds the fragments. -/
theorem Request.base_keeps {P : SelectionTree → Prop} {A : Attach → Prop} {r : Request}
    (step : Attach.Keeps schema A P) (fragment : ∀ name, A (.fragment name))
    (start : P (.empty r.operation)) (declare : ∀ t name on, P t → P (t.addFragment name on))
    (h : r.base schema = .ok tree) : P tree := by
  obtain ⟨declared, hdeclared, h₁⟩ := bind_ok.mp h
  obtain ⟨⟨_, t⟩, hgrow, h₂⟩ := bind_ok.mp h₁
  cases h₂
  have hdeclared : P declared := by
    refine foldlM_ok (fun _ t => P t) hdeclared start fun _ f _ t t' _ ht hstep => ?_
    unfold Request.declare at hstep
    split at hstep
    · cases hstep
      exact declare t f.name f.on ht
    · cases hstep
  exact run_foldlM_ok (fun _ _ t => P t) hgrow hdeclared fun _ f _ _ t _ t' _ ht hstep =>
    step.addSelections (fragment f.name) ht hstep

/-- The tree of a request selects fields of the schema. -/
theorem Request.build_over {r : Request} (indexed : schema.Indexed) (h : r.build schema = .ok tree) :
    tree.Over schema := by
  have step : Attach.Keeps schema (fun _ => True) (·.Over schema) :=
    fun _ _ _ _ _ _ onSchema hn hadd => ⟨onSchema.grow (hn.over indexed) hadd, trivial⟩
  obtain ⟨root, base, -, hbase, hroots⟩ := Request.build_ok.mp h
  have start : (SelectionTree.empty r.operation).Over schema := by
    intro id n f hid
    simp [SelectionTree.node?, SelectionTree.empty] at hid
  exact step.addSelections trivial
    (Request.base_keeps step (fun _ => trivial) start (fun _ _ _ h => h) hbase) hroots

end FieldPlan
