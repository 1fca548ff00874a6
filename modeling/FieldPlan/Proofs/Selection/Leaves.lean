import FieldPlan.Proofs.Selection.Ordered
import FieldPlan.Proofs.Selection.Walk

/-!
# Leaves of selection trees

* `Selects.IsLeaf` : scalar fields and spreads, below which nothing is selected;
* `SelectionTree.Sealed` : a tree where nothing is selected below these; so nothing is selected below
  scalar fields (`SelectionTree.Leafy`) or below spreads (`SelectionTree.Bare`);
* `Attach.Opens` : places where nodes may be added in such a tree;
* `Request.build_sealed` : the tree of a request is such a tree.
-/

namespace FieldPlan

variable {schema : Schema} {path : Path} {node : Node}

/-- Requests select nothing below a scalar field or the spread of a fragment. -/
def Selects.IsLeaf : Selects → Prop
  | .field f => f.shape = .scalar
  | .spread _ => True
  | .inline => False

namespace SelectionTree

variable {t t' t'' : SelectionTree} {id : NodeId}

/-- Nothing is selected below scalar fields and spreads. -/
def Sealed (t : SelectionTree) : Prop :=
  ∀ id n, t.node? id = some n → n.selects.IsLeaf → n.children = []

/-- Nothing is selected below a scalar field. -/
def Leafy (t : SelectionTree) : Prop :=
  ∀ id n f, t.node? id = some n → n.selects = .field f → f.shape = .scalar → n.children = []

/-- Spreads have no children of their own. -/
def Bare (t : SelectionTree) : Prop :=
  ∀ id n name, t.node? id = some n → n.spread? = some name → n.children = []

theorem Sealed.leafy (h : t.Sealed) : t.Leafy := fun id n f hn hf hs => by
  refine h id n hn ?_
  rw [hf]
  exact hs

theorem Sealed.bare (h : t.Sealed) : t.Bare := fun id n name hn hs => by
  refine h id n hn ?_
  unfold Node.spread? at hs
  cases hk : n.selects with
  | spread _ => trivial
  | field f =>
    rw [hk] at hs
    cases hs
  | inline =>
    rw [hk] at hs
    cases hs

/-- The nodes of the first tree are in the second one, where more may be selected below them. -/
def Keeps (t t' : SelectionTree) : Prop :=
  ∀ id n, t.node? id = some n → ∃ n', t'.node? id = some n' ∧ n'.selects = n.selects

theorem Keeps.refl (t : SelectionTree) : t.Keeps t := fun _ n h => ⟨n, h, rfl⟩

theorem Keeps.trans (h : t.Keeps t') (h' : t'.Keeps t'') : t.Keeps t'' := by
  intro id n hn
  obtain ⟨n', hn', same⟩ := h id n hn
  obtain ⟨n'', hn'', same'⟩ := h' id n' hn'
  exact ⟨n'', hn'', same'.trans same⟩

/-! ## Adding nodes -/

theorem keeps_push (t : SelectionTree) (parent : Option NodeId) (node : Node) :
    t.Keeps (t.push parent node) := by
  intro id n hn
  have old : id ≠ t.size := Nat.ne_of_lt (lt_size hn)
  refine ⟨n, ?_, rfl⟩
  rw [node_push, if_neg old]
  exact hn

theorem keeps_link (t : SelectionTree) (parent child : NodeId) : t.Keeps (t.link parent child) := by
  intro id n hn
  refine ⟨linked parent child id n, ?_, ?_⟩
  · rw [node_link, hn, Option.map_some]
  · unfold linked
    split <;> rfl

theorem Sealed.push (h : t.Sealed) (parent : Option NodeId) (node : Node) :
    (t.push parent node).Sealed := by
  intro id n hn leaf
  rw [node_push] at hn
  split at hn
  · cases hn
    rfl
  · exact h id n hn leaf

end SelectionTree

/-- A node may be added there in a tree where nothing is selected below scalar fields and spreads. -/
def Attach.Opens (t : SelectionTree) : Attach → Prop
  | .child parent => ∃ n, t.node? parent = some n ∧ ¬n.selects.IsLeaf
  | _ => True

theorem Attach.Opens.keeps {t t' : SelectionTree} {attach : Attach} (h : attach.Opens t)
    (keeps : t.Keeps t') : attach.Opens t' := by
  cases attach with
  | root => trivial
  | fragment name => trivial
  | child parent =>
    obtain ⟨n, hn, opened⟩ := h
    obtain ⟨n', hn', same⟩ := keeps parent n hn
    exact ⟨n', hn', same ▸ opened⟩

namespace SelectionTree

variable {t t' : SelectionTree} {id : NodeId}

/-- What adding a node leaves behind. -/
theorem Sealed.add (h : t.Sealed) {attach : Attach} (opened : attach.Opens t)
    (hadd : t.grow attach node = (some id, t')) :
    t'.Sealed ∧ t.Keeps t' ∧ ∃ n, t'.node? id = some n ∧ n.selects = node.selects := by
  have pushed : ∀ (t : SelectionTree) (parent : Option NodeId),
      ∃ n, (t.push parent node).node? t.size = some n ∧ n.selects = node.selects := by
    intro t parent
    refine ⟨{ node with parent := parent, children := [] }, ?_, rfl⟩
    rw [node_push, if_pos rfl]
  cases attach with
  | root =>
    cases hadd
    exact ⟨h.push none node, keeps_push t none node, pushed t none⟩
  | fragment name =>
    obtain ⟨f, -, rfl, rfl⟩ := addFragmentChild_ok hadd
    exact ⟨h.push none node, keeps_push t none node, pushed t none⟩
  | child parent =>
    obtain ⟨-, rfl, rfl⟩ := addChild_ok hadd
    have linked : (t.link parent t.size).Sealed := by
      intro id n hn leaf
      rw [node_link] at hn
      obtain ⟨m, hm, rfl⟩ := Option.map_eq_some_iff.mp hn
      unfold SelectionTree.linked at leaf ⊢
      split at leaf
      · rename_i here
        obtain ⟨p, hp, opened⟩ := opened
        obtain rfl : p = m := Option.some.inj (hp.symm.trans (here ▸ hm))
        exact absurd leaf opened
      · rename_i elsewhere
        rw [if_neg elsewhere]
        exact h id m hm leaf
    refine ⟨linked.push (some parent) node, ?_, ?_⟩
    · exact (keeps_link t parent t.size).trans (keeps_push _ (some parent) node)
    · have last := pushed (t.link parent t.size) (some parent)
      rwa [size_link] at last

end SelectionTree

/-! ## Selections -/

/-- What selections are added below is neither a scalar field nor a spread. -/
theorem resolveSelection_opens {owner entity : String} {field outputName spread on : Option String}
    {leaf : Bool} {r : Resolved}
    (h : resolveSelection schema owner field outputName spread on leaf path = .ok r)
    (below : r.owner = some entity) : ¬r.node.selects.IsLeaf := by
  intro leaf
  unfold resolveSelection at h
  split at h
  · unfold resolveField at h
    split at h
    · cases h
    · rename_i f _
      dsimp only at h
      split at h
      · cases h
      · cases h
      · cases h
      · cases h
        have scalar : f.shape = .scalar := leaf
        unfold FieldDef.shape at scalar
        split at scalar
        · cases scalar
        · rw [if_pos (Option.isSome_iff_exists.mpr ⟨entity, below⟩)] at scalar
          cases scalar
  · cases h
    cases below
  · unfold resolveInline at h
    dsimp only at h
    split at h
    · cases h
    · split at h
      · cases h
      · cases h
        exact leaf

mutual

theorem addSelection_sealed {t t' : SelectionTree} {path : Path} {attach : Attach} {owner : String}
    {s : SelectionRequest} (h : t.Sealed) (opened : attach.Opens t)
    (hadd : addSelection schema attach owner path s t = .ok ((), t')) : t'.Sealed ∧ t.Keeps t' := by
  match s with
  | ⟨field, outputName, spread, on, arguments, directives, selections⟩ =>
    rw [addSelection] at hadd
    obtain ⟨r, t₁, hlift, h₁⟩ := run_bind_ok.mp hadd
    obtain ⟨hr, ht₁⟩ := run_lift_ok.mp hlift
    obtain rfl : t₁ = t := ht₁
    obtain ⟨id, t₂, hnode, h₂⟩ := run_bind_ok.mp h₁
    obtain ⟨whole, keeps, n, hn, same⟩ := h.add opened (Attach.add_ok.mp hnode)
    cases hb : r.owner with
    | none =>
      rw [hb] at h₂
      cases h₂
      exact ⟨whole, keeps⟩
    | some entity =>
      rw [hb] at h₂
      have below : (Attach.child id).Opens t₂ := by
        refine ⟨n, hn, ?_⟩
        rw [same]
        exact resolveSelection_opens hr hb
      obtain ⟨whole', keeps'⟩ := addSelections_sealed whole below h₂
      exact ⟨whole', keeps.trans keeps'⟩

theorem addSelections_sealed {t t' : SelectionTree} {path : Path} {attach : Attach} {owner : String}
    {ss : List SelectionRequest} (h : t.Sealed) (opened : attach.Opens t)
    (hadd : addSelections schema attach owner path ss t = .ok ((), t')) :
    t'.Sealed ∧ t.Keeps t' := by
  match ss with
  | [] =>
    cases hadd
    exact ⟨h, .refl t⟩
  | s :: rest =>
    rw [addSelections] at hadd
    obtain ⟨_, t₁, hs, h₁⟩ := run_bind_ok.mp hadd
    obtain ⟨whole, keeps⟩ := addSelection_sealed h opened hs
    obtain ⟨whole', keeps'⟩ := addSelections_sealed whole (opened.keeps keeps) h₁
    exact ⟨whole', keeps.trans keeps'⟩

end

/-- In the tree of a request nothing is selected below scalar fields and spreads. -/
theorem Request.build_sealed {t : SelectionTree} {r : Request} (h : r.build schema = .ok t) :
    t.Sealed := by
  obtain ⟨root, base, -, hbase, hroots⟩ := Request.build_ok.mp h
  obtain ⟨declared, hdeclared, h₁⟩ := bind_ok.mp hbase
  obtain ⟨⟨_, grown⟩, hgrow, h₂⟩ := bind_ok.mp h₁
  cases h₂
  have start : declared.Sealed := by
    refine foldlM_ok (fun _ t => t.Sealed) hdeclared ?_ fun _ f _ t t' _ ht hstep => ?_
    · intro id n hn
      simp [SelectionTree.node?, SelectionTree.empty] at hn
    · unfold Request.declare at hstep
      split at hstep
      · cases hstep
        exact ht
      · cases hstep
  have whole : base.Sealed := by
    refine run_foldlM_ok (fun _ _ t => t.Sealed) hgrow start fun _ f _ _ t _ t' _ ht hstep => ?_
    have opened : (Attach.fragment f.name).Opens t := trivial
    exact (addSelections_sealed ht opened hstep).1
  have opened : Attach.root.Opens base := trivial
  exact (addSelections_sealed whole opened hroots).1

theorem Request.build_leafy {t : SelectionTree} {r : Request} (h : r.build schema = .ok t) :
    t.Leafy :=
  (Request.build_sealed h).leafy

end FieldPlan
