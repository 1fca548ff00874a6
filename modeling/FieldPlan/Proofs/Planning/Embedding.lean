import FieldPlan.Proofs.Planning.Operation
import FieldPlan.Proofs.Selection.Embedding

/-!
# Planning in embedded trees

What is planned for a node depends on the nodes below it and above it, and not on which numbers they
have or which nodes there are beside.

* `Planner.withTree` : the same planner over another tree;
* `Planner.expand_move` : nodes expand to the same in a tree and in one that it is embedded in;
* `Planner.planNode_move` : a node is planned in the same way;
* `Planner.addRoot_move` : so is a root.
-/

namespace FieldPlan

/-- A planner over another tree. -/
def Planner.withTree (c : Planner) (tree : SelectionTree) : Planner := { c with tree := tree }

def Selected.move (φ : NodeId → NodeId) (s : Selected) : Selected := ⟨φ s.id, s.node.move φ, s.field⟩

def Contribution.move (φ : NodeId → NodeId) : Contribution → Contribution
  | .node s => .node (s.move φ)
  | .extracted field part => .extracted field part

/-- A field to be planned under other numbers of nodes. -/
def Target.move (φ : NodeId → NodeId) (t : Target) : Target :=
  ⟨t.toSelected.move φ, t.context, t.lineage.map φ, t.path⟩

/-- A node of a tree below nodes of the tree. -/
structure Target.StandsIn (t : Target) (tree : SelectionTree) : Prop where
  node : tree.node? t.id = some t.node
  lineage : ∀ a ∈ t.lineage, a < tree.size

theorem mapM_map_eq {ε α β ι κ : Type} {f : ι → Except ε α} {f' : κ → Except ε β} {m : ι → κ}
    {r : α → β} {is : List ι} (h : ∀ i ∈ is, f' (m i) = (f i).map r) :
    (is.map m).mapM f' = (is.mapM f).map (List.map r) :=
  mapM_forall₂ (List.forall₂_map_left_iff.mpr (List.forall₂_same.mpr h))

theorem Directive.conditional_move (φ : NodeId → NodeId) (name description : String) (keep : Bool)
    (id : NodeId) (arguments : Dict Json) :
    (conditional name description keep).processField (φ id) arguments =
      ((conditional name description keep).processField id arguments).map (Option.map φ) := by
  show (condition name arguments >>= fun b => pure (if b == keep then _ else _)) =
    Except.map _ (condition name arguments >>= fun b => pure (if b == keep then _ else _))
  cases condition name arguments with
  | error m => rfl
  | ok b =>
    show pure (if b == keep then _ else _) = Except.map _ (pure (if b == keep then _ else _))
    split <;> rfl

theorem foldlM_map_eq {m : Type → Type} [Monad m] {α ι κ : Type} {f : α → ι → m α} {f' : α → κ → m α}
    {g : ι → κ} {is : List ι} (h : ∀ i ∈ is, ∀ a, f' a (g i) = f a i) (a : α) :
    (is.map g).foldlM f' a = is.foldlM f a := by
  induction is generalizing a with
  | nil => rfl
  | cons i is ih =>
    obtain ⟨first, rest⟩ := List.forall_mem_cons.mp h
    rw [List.map_cons, List.foldlM_cons, List.foldlM_cons, first]
    exact congrArg _ (funext fun b => ih rest b)

namespace Planner

variable {c : Planner} {φ : NodeId → NodeId} {tree : SelectionTree}

/-! ## Expansion -/

theorem keep_move (tree : SelectionTree) (standard : c.schema.Standard) (path : Path)
    (location : Location) (id : NodeId) (uses : List DirectiveUse) :
    c.keep path location (φ id) uses =
      ((c.withTree tree).keep path location id uses).map (Option.map φ) := by
  induction uses generalizing id with
  | nil => rfl
  | cons use rest ih =>
    have one : c.applyDirective path location (φ id) use =
        ((c.withTree tree).applyDirective path location id use).map (Option.map φ) := by
      unfold applyDirective
      dsimp only [withTree]
      cases hd : c.schema.directives.find? use.name with
      | none => rfl
      | some d =>
        obtain ⟨description, k, rfl⟩ := standard.conditional hd
        dsimp only
        split
        · rw [Directive.conditional_move]
          show _ = Except.map _ (Except.mapError _ ((Directive.conditional use.name description
            k).processField id (use.arguments.resolve c.assignment)))
          cases (Directive.conditional use.name description k).processField id
            (use.arguments.resolve c.assignment) <;> rfl
        · rfl
    rw [keep, keep, one]
    cases (c.withTree tree).applyDirective path location id use with
    | error e => rfl
    | ok next =>
      cases next with
      | none => rfl
      | some next => exact ih next

theorem contributions_move (s : Selected) (pass : Pass) :
    (s.move φ).contributions pass = (s.contributions pass).map (Contribution.move φ) := by
  cases pass with
  | services => rfl
  | shape =>
    show (if s.field.hasServices then _ else _) = List.map _ (if s.field.hasServices then _ else _)
    split
    · rw [List.map_map]
      rfl
    · rfl

section Embedded

variable (standard : c.schema.Standard) (h : tree.Embeds φ c.tree) (ordered : tree.Ordered)

include standard h ordered

/-- A node expands to the same, with as many steps as its walk may take. -/
theorem expandNode_move (pass : Pass) (path : Path) (fuel fuel' : Nat) {spreading : List String}
    {id : NodeId} (hid : id < tree.size) (hf : tree.steps spreading id ≤ fuel)
    (hf' : tree.steps spreading id ≤ fuel') :
    c.expandNode pass path fuel spreading (φ id) =
      ((c.withTree tree).expandNode pass path fuel' spreading id).map
        (List.map (Contribution.move φ)) := by
  induction fuel generalizing fuel' spreading id with
  | zero => exact absurd hf (Nat.not_le.mpr (SelectionTree.steps_pos hid))
  | succ fuel ih =>
    cases fuel' with
    | zero => exact absurd hf' (Nat.not_le.mpr (SelectionTree.steps_pos hid))
    | succ fuel' =>
      have below : ∀ (spreading : List String) (ids : List NodeId), (∀ child ∈ ids,
          child < tree.size ∧ tree.steps spreading child ≤ fuel ∧
            tree.steps spreading child ≤ fuel') →
          ((ids.map φ).mapM (c.expandNode pass path fuel spreading) >>= fun parts =>
            pure parts.flatten) =
          (ids.mapM ((c.withTree tree).expandNode pass path fuel' spreading) >>= fun parts =>
            pure parts.flatten).map (List.map (Contribution.move φ)) := by
        intro spreading ids hids
        rw [mapM_map_eq fun child hc =>
          ih fuel' (hids child hc).1 (hids child hc).2.1 (hids child hc).2.2]
        cases ids.mapM ((c.withTree tree).expandNode pass path fuel' spreading) with
        | error e => rfl
        | ok parts => exact congrArg Except.ok (List.map_flatten).symm
      obtain ⟨n, hn⟩ := SelectionTree.node_of_lt hid
      have here : c.node path (φ id) = .ok (n.move φ) := by
        unfold Planner.node
        rw [h.node id n hn]
        rfl
      have there : ∀ path, (c.withTree tree).node path id = .ok n := by
        intro path
        unfold Planner.node
        rw [show (c.withTree tree).tree.node? id = some n from hn]
        rfl
      rw [expandNode, expandNode, here, there]
      show (c.keep (nodePath path n) n.location (φ id) n.directives >>= _) =
        Except.map _ ((c.withTree tree).keep (nodePath path n) n.location id n.directives >>= _)
      rw [keep_move tree standard]
      cases hk : (c.withTree tree).keep (nodePath path n) n.location id n.directives with
      | error e => rfl
      | ok next =>
        cases next with
        | none => rfl
        | some next =>
          have hstandard : (c.withTree tree).schema.Standard := standard
          obtain ⟨rfl, -⟩ := keep_standard hstandard hk
          have here : c.node (nodePath path n) (φ next) = .ok (n.move φ) := by
            unfold Planner.node
            rw [h.node next n hn]
            rfl
          show (c.node (nodePath path n) (φ next) >>= _) =
            Except.map _ ((c.withTree tree).node (nodePath path n) next >>= _)
          rw [here, there]
          have run : ∀ (n : Node) (k : Node → Except PlanError (List Contribution)),
              (Except.ok n >>= k) = k n := fun _ _ => rfl
          rw [run, run, show (n.move φ).selects = n.selects from rfl]
          cases n.selects with
          | spread name =>
            dsimp only
            rw [show (c.withTree tree).tree.fragments = tree.fragments from rfl, h.fragments]
            cases hfr : tree.fragments.find? name with
            | none => rfl
            | some f =>
              dsimp only
              split
              · rfl
              · rename_i hnew
                have walk := below (name :: spreading) f.children fun child hc =>
                  have lt := SelectionTree.steps_spread child hfr (by simpa using hnew) hid
                  ⟨ordered.fragments name f hfr child hc, by omega, by omega⟩
                rwa [(List.map_congr_left (h.fixed name f hfr)).trans (List.map_id _)] at walk
          | inline =>
            refine below spreading n.children fun child hc => ?_
            obtain ⟨lt, size⟩ := ordered.children next n hn child hc
            have := SelectionTree.steps_child spreading lt hid
            exact ⟨size, by omega, by omega⟩
          | field f =>
            show (if c.authorizer f then _ else _) = Except.map _ (if c.authorizer f then _ else _)
            split
            · exact congrArg Except.ok (contributions_move ⟨next, n, f⟩ pass)
            · rfl

/-- Nodes expand to the same. -/
theorem expand_move (pass : Pass) (path : Path) (ids : List NodeId)
    (hids : ∀ id ∈ ids, id < tree.size) :
    c.expand pass path (ids.map φ) =
      ((c.withTree tree).expand pass path ids).map (List.map (Contribution.move φ)) := by
  have enough : (c.withTree tree).expansionDepth ≤ c.expansionDepth := by
    unfold expansionDepth
    rw [h.fragments]
    exact Nat.succ_le_succ (Nat.mul_le_mul_right _ h.size)
  unfold expand
  rw [mapM_map_eq fun id hid =>
    have bound : tree.steps [] id ≤ (c.withTree tree).expansionDepth := (tree.steps_lt [] id).le
    expandNode_move standard h ordered pass path _ _ (hids id hid) (bound.trans enough) bound]
  cases ids.mapM ((c.withTree tree).expandNode pass path (c.withTree tree).expansionDepth []) with
  | error e => rfl
  | ok parts => exact congrArg Except.ok (List.map_flatten).symm

end Embedded

/-! ## Nodes -/

section Nodes

variable (h : tree.Embeds φ c.tree) (ordered : tree.Ordered) {t : Target}

variable (ht : t.StandsIn tree)

include h ordered ht

theorem contextExpr_move (frame : Frame) :
    c.contextExpr (t.move φ) frame = (c.withTree tree).contextExpr t frame := by
  have services : c.tree.hasAnyServices (t.move φ).id = (c.withTree tree).tree.hasAnyServices t.id :=
    h.hasAnyServices_eq ordered (SelectionTree.lt_size ht.node)
  unfold contextExpr materializedExpr
  rw [services]
  rfl

theorem resolveBase_move (frame : Frame) :
    c.resolveBase (t.move φ) frame = (c.withTree tree).resolveBase t frame := by
  have arguments : c.tree.mergedArguments (t.move φ).node (t.move φ).lineage =
      (c.withTree tree).tree.mergedArguments t.node t.lineage :=
    h.mergedArguments_eq t.node ht.lineage
  have direct : ∀ path e uses, c.directExpr path e uses = (c.withTree tree).directExpr path e uses := by
    intro path e uses
    induction uses generalizing e with
    | nil => rfl
    | cons use rest ih => simp only [directExpr, ih]; rfl
  unfold resolveBase
  rw [arguments, contextExpr_move h ordered ht]
  simp only [direct]
  rfl

theorem carries_move (frame : Frame) :
    c.carries (t.move φ) frame = (c.withTree tree).carries t frame := by
  unfold carries
  rw [show c.tree.hasServiceDescendants (t.move φ).id = _ from
    h.hasServiceDescendants_eq ordered (SelectionTree.lt_size ht.node)]
  rfl

variable (standard : c.schema.Standard) (onSchema : tree.Over c.schema) {planChild planChild' : PlanChild}
  (hchild : ∀ s lineage, tree.node? s.id = some s.node → (∀ a ∈ lineage, a < tree.size) →
    ∀ context path frame, planChild (s.move φ) context (lineage.map φ) path frame =
      planChild' s context lineage path frame)

include standard onSchema hchild

theorem planChildren_move (context : Expr) (frame : Frame) :
    c.planChildren planChild (t.move φ) context frame =
      (c.withTree tree).planChildren planChild' t context frame := by
  have hid := SelectionTree.lt_size ht.node
  have expanded : c.expand frame.pass t.path (t.node.children.map φ) =
      ((c.withTree tree).expand frame.pass t.path t.node.children).map
        (List.map (Contribution.move φ)) :=
    expand_move standard h ordered frame.pass t.path _ fun child hc =>
      (ordered.children t.id t.node ht.node child hc).2
  unfold planChildren
  show (StateT.lift (c.expand frame.pass t.path (t.node.children.map φ)) >>= _) =
    (StateT.lift ((c.withTree tree).expand frame.pass t.path t.node.children) >>= _)
  rw [expanded]
  cases hparts : (c.withTree tree).expand frame.pass t.path t.node.children with
  | error e => rfl
  | ok parts =>
    have hstandard : (c.withTree tree).schema.Standard := standard
    have hover : (c.withTree tree).tree.Over (c.withTree tree).schema := onSchema
    have sound := expand_sound hstandard hover hparts
    refine foldlM_map_eq (f := addContribution planChild' t context { frame with isRoot := false })
      (fun x hx children => ?_) []
    cases x with
    | extracted field part => rfl
    | node s =>
      have planned := hchild s (t.id :: t.lineage) (sound _ hx).node
        (List.forall_mem_cons.mpr ⟨hid, ht.lineage⟩) context (t.path.child s.node.name)
        { frame with isRoot := false }
      show (if children.contains s.node.name then _ else
        (planChild (s.move φ) context ((t.id :: t.lineage).map φ) (t.path.child s.node.name)
          { frame with isRoot := false } >>= _)) = _
      rw [planned]
      rfl

theorem planField_move (frame : Frame) :
    c.planField planChild (t.move φ) frame =
      (c.withTree tree).planField planChild' t frame := by
  have base := resolveBase_move h ordered ht frame
  have carried := carries_move h ordered ht frame
  have children := fun context =>
    planChildren_move h ordered ht standard onSchema hchild context frame
  unfold planField
  rw [show (t.move φ).field.shape = t.field.shape from rfl]
  congr 1
  cases t.field.shape with
  | scalar =>
    dsimp only
    unfold planScalar
    rw [base]
    rfl
  | object =>
    dsimp only
    unfold planObject
    simp only [base, carried, children]
    rfl
  | list =>
    dsimp only
    unfold planList
    simp only [base, carried, children]
    rfl

omit hchild ht in
/-- A node is planned in the same way. -/
theorem planNode_move (depth : Nat) (s : Selected) (lineage : List NodeId)
    (hs : tree.node? s.id = some s.node) (hl : ∀ a ∈ lineage, a < tree.size) (context : Expr)
    (path : Path) (frame : Frame) :
    c.planNode depth (s.move φ) context (lineage.map φ) path frame =
      (c.withTree tree).planNode depth s context lineage path frame := by
  induction depth generalizing s lineage context path frame with
  | zero => rfl
  | succ depth ih =>
    exact planField_move h ordered (t := ⟨s, context, lineage, path⟩) ⟨hs, hl⟩ standard onSchema
      (fun s lineage hs hl context path frame => ih s lineage hs hl context path frame) frame

end Nodes

/-! ## Roots -/

section Roots

variable (standard : c.schema.Standard) (h : tree.Embeds φ c.tree) (ordered : tree.Ordered)
  (onSchema : tree.Over c.schema)

include standard h ordered

theorem expandRoot_move {root : NodeId} (hr : root < tree.size) :
    c.expandRoot (φ root) = ((c.withTree tree).expandRoot root).map (List.map (Selected.move φ)) := by
  have expanded := expand_move standard h ordered .services [] [root] (by simpa using hr)
  unfold expandRoot
  rw [show [φ root] = [root].map φ from rfl, expanded]
  cases (c.withTree tree).expand .services [] [root] with
  | error e => rfl
  | ok parts =>
    refine congrArg Except.ok ?_
    rw [List.filterMap_map, List.map_filterMap]
    refine List.filterMap_congr fun x _ => ?_
    cases x <;> rfl

include onSchema

theorem planRoot_move (rootType : String) {s : Selected} (hs : tree.node? s.id = some s.node) :
    c.planRoot rootType (s.move φ) = (c.withTree tree).planRoot rootType s := by
  have pass : ∀ root frame, c.planPass (s.move φ) root frame = (c.withTree tree).planPass s root frame := by
    intro root frame
    have planned := planNode_move h ordered standard onSchema (c.options.maxDepth + 1) s [] hs
      (by simp) (.param root) [s.node.name] frame
    unfold planPass
    show (fun fresh => ((c.planNode (c.options.maxDepth + 1) (s.move φ) (.param root) ([].map φ)
      [s.node.name] frame).run { fresh := fresh } >>= _)) = _
    rw [planned]
    rfl
  have services : c.tree.hasAnyServices (s.move φ).id = (c.withTree tree).tree.hasAnyServices s.id :=
    h.hasAnyServices_eq ordered (SelectionTree.lt_size hs)
  unfold planRoot planServicePass
  simp only [pass, services]
  rfl

/-- A root is planned in the same way, whatever was planned before. -/
theorem addRoot_move (rootType : String) (p : Progress) {root : NodeId} (hr : root < tree.size) :
    c.addRoot rootType p (φ root) = (c.withTree tree).addRoot rootType p root := by
  obtain ⟨n, hn⟩ := SelectionTree.node_of_lt hr
  unfold addRoot
  rw [expandRoot_move standard h ordered hr, h.node root n hn,
    show (c.withTree tree).tree.node? root = some n from hn]
  cases hsel : (c.withTree tree).expandRoot root with
  | error e => rfl
  | ok selected =>
    refine foldlM_map_eq (f := (c.withTree tree).addRootField rootType) (fun s hs p => ?_) p
    have hstandard : (c.withTree tree).schema.Standard := standard
    have hover : (c.withTree tree).tree.Over (c.withTree tree).schema := onSchema
    have node : tree.node? s.id = some s.node := (expandRoot_kept hstandard hover hsel hs).node
    unfold addRootField
    rw [planRoot_move standard h ordered onSchema rootType node]
    rfl

end Roots

end Planner

end FieldPlan
