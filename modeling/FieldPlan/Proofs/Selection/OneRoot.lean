import FieldPlan.Proofs.Renumbering
import FieldPlan.Proofs.Selection.Embedding

/-!
# Requests of one root

A request with one of the selections of a request, and with the same fragments, has a tree that stands
in the tree of the request: the fragments in their places, the selection further down.

* `SelectionTree.Extends` : a tree that later nodes were added to, apart from the ones it had;
* `SelectionTree.Tracks` : a tree that grows within another one;
* `SelectionTree.StandsAt` : a tree of one root that stands in another tree at a root;
* `Request.build_roots` : so do the trees of the requests of one root.
-/

namespace FieldPlan

variable {schema : Schema} {path : Path} {node : Node}

namespace SelectionTree

variable {t t' : SelectionTree} {id : NodeId}

/-! ## Roots and kinds -/

/-- Only the roots that are added are roots. -/
theorem roots_keeps (schema : Schema) : Attach.Keeps schema (· ≠ .root) (·.roots = []) := by
  intro attach node id t t' hA h _ hadd
  refine ⟨?_, nofun⟩
  cases attach with
  | root => exact absurd rfl hA
  | child parent =>
    obtain ⟨-, -, rfl⟩ := addChild_ok hadd
    exact h
  | fragment name =>
    obtain ⟨f, -, -, rfl⟩ := addFragmentChild_ok hadd
    exact h

theorem kind_keeps (schema : Schema) (kind : OperationKind) :
    Attach.Keeps schema (fun _ => True) (·.kind = kind) := by
  intro attach node id t t' _ h _ hadd
  refine ⟨?_, trivial⟩
  cases attach with
  | root =>
    cases hadd
    exact h
  | child parent =>
    obtain ⟨-, -, rfl⟩ := addChild_ok hadd
    exact h
  | fragment name =>
    obtain ⟨f, -, -, rfl⟩ := addFragmentChild_ok hadd
    exact h

/-! ## Extended trees -/

/-- The second tree has the nodes of the first one, in their places, and the same fragments. -/
structure Extends (t t' : SelectionTree) : Prop where
  node : ∀ id n, t.node? id = some n → t'.node? id = some n
  fragments : t'.fragments = t.fragments
  kind : t'.kind = t.kind
  size : t.size ≤ t'.size

theorem Extends.refl (t : SelectionTree) : t.Extends t :=
  ⟨fun _ _ h => h, rfl, rfl, Nat.le_refl _⟩

theorem Extends.trans {u : SelectionTree} (h : t.Extends t') (h' : t'.Extends u) : t.Extends u where
  node id n hn := h'.node id n (h.node id n hn)
  fragments := h'.fragments.trans h.fragments
  kind := h'.kind.trans h.kind
  size := h.size.trans h'.size

theorem Extends.embeds {u : SelectionTree} {φ : NodeId → NodeId} (h : t'.Embeds φ t)
    (e : t.Extends u) : t'.Embeds φ u where
  node id n hn := e.node (φ id) (n.move φ) (h.node id n hn)
  fragments := e.fragments.trans h.fragments
  fixed := h.fixed
  size := h.size.trans e.size

end SelectionTree

/-- At the roots, or below a node that comes after the first `n`. -/
def Attach.Above (n : Nat) : Attach → Prop
  | .root => True
  | .child parent => n ≤ parent
  | .fragment _ => False

namespace SelectionTree

variable {t t' : SelectionTree} {id : NodeId}

theorem Extends.push {u : SelectionTree} (h : t.Extends u) (parent : Option NodeId) (node : Node) :
    t.Extends (u.push parent node) where
  node id n hn := by
    rw [node_push, if_neg (Nat.ne_of_lt (lt_size (h.node id n hn)))]
    exact h.node id n hn
  fragments := h.fragments
  kind := h.kind
  size := by
    rw [size_push]
    exact Nat.le_succ_of_le h.size

/-- Nodes that are added after the ones of a tree leave these as they are. -/
theorem Extends.keeps (schema : Schema) (t : SelectionTree) :
    Attach.Keeps schema (Attach.Above t.size) t.Extends := by
  intro attach node id u u' above h _ hadd
  cases attach with
  | root =>
    cases hadd
    have pushed := h.push none node
    exact ⟨⟨pushed.node, pushed.fragments, pushed.kind, pushed.size⟩, h.size⟩
  | child parent =>
    obtain ⟨hp, rfl, rfl⟩ := addChild_ok hadd
    have linked : t.Extends (u.link parent u.size) := by
      refine ⟨fun id n hn => ?_, h.fragments, h.kind, by simpa using h.size⟩
      have apart : ¬parent = id := fun he => Nat.not_le.mpr (lt_size hn) (he ▸ above)
      rw [node_link, h.node id n hn]
      simp [SelectionTree.linked, apart]
    exact ⟨linked.push (some parent) node, h.size⟩
  | fragment name => exact above.elim

end SelectionTree

/-! ## Trees that grow within others -/

/-- The same place under other numbers of nodes. -/
def Attach.move (φ : NodeId → NodeId) : Attach → Attach
  | .child parent => .child (φ parent)
  | attach => attach

/-- At the roots or below a node of a tree. -/
def Attach.Inside (t : SelectionTree) : Attach → Prop
  | .root => True
  | .child parent => parent < t.size
  | .fragment _ => False

/-- The roots that a tree gets when a node is added. -/
def Attach.newRoots (t : SelectionTree) : Attach → List NodeId
  | .root => [t.size]
  | _ => []

namespace SelectionTree

variable {low : Nat} {ρ : Renumbering low} {t t' u : SelectionTree} {id : NodeId}

/-- The first tree stands in the second one, and what is added to both next has corresponding numbers.
-/
structure Tracks (ρ : Renumbering low) (t' t : SelectionTree) : Prop where
  embeds : t'.Embeds ρ t
  ordered : t'.Ordered
  low : low ≤ t'.size
  size : ρ t'.size = t.size

theorem Embeds.push (h : t'.Embeds ρ t) (hs : ρ t'.size = t.size) (parent : Option NodeId)
    (node : Node) : (t'.push parent node).Embeds ρ (t.push (parent.map ρ) node) where
  node id n hn := by
    rw [node_push] at hn ⊢
    split at hn
    · rename_i here
      cases hn
      rw [if_pos (here ▸ hs)]
      rfl
    · rename_i other
      rw [← hs, if_neg fun he => other (ρ.injective he)]
      exact h.node id n hn
  fragments := h.fragments
  fixed := h.fixed
  size := by
    rw [size_push, size_push]
    exact Nat.succ_le_succ h.size

theorem Embeds.link (h : t'.Embeds ρ t) (parent child : NodeId) :
    (t'.link parent child).Embeds ρ (t.link (ρ parent) (ρ child)) where
  node id n hn := by
    rw [node_link] at hn ⊢
    obtain ⟨m, hm, rfl⟩ := Option.map_eq_some_iff.mp hn
    rw [h.node id m hm]
    refine congrArg some ?_
    unfold linked
    by_cases hp : parent = id
    · rw [if_pos hp, if_pos (congrArg ρ hp)]
      simp [Node.move]
    · rw [if_neg hp, if_neg fun he => hp (ρ.injective he)]
  fragments := h.fragments
  fixed := h.fixed
  size := by
    rw [size_link, size_link]
    exact h.size

/-- A node that is added to the larger tree can be added to the smaller one. -/
theorem Tracks.add (h : Tracks ρ t' t) {attach : Attach} (inside : attach.Inside t')
    (hadd : t.grow (attach.move ρ) node = (some id, u)) :
    ∃ u', t'.grow attach node = (some t'.size, u') ∧ id = ρ t'.size ∧ Tracks ρ u' u ∧
      u'.size = t'.size + 1 ∧ u'.roots = t'.roots ++ attach.newRoots t' ∧
        u.roots = t.roots ++ (attach.newRoots t').map ρ := by
  have low : low ≤ t'.size + 1 := Nat.le_succ_of_le h.low
  have next : ρ (t'.size + 1) = t.size + 1 := by rw [ρ.next _ h.low, h.size]
  cases attach with
  | root =>
    cases hadd
    obtain ⟨node, fragments, fixed, size⟩ := h.embeds.push h.size none node
    obtain ⟨children, parent, ordered⟩ := h.ordered.push ‹Node›
    refine ⟨_, rfl, h.size.symm, ?_, size_push t' none _, rfl, ?_⟩
    · refine ⟨⟨node, fragments, fixed, size⟩, ⟨children, parent, ordered⟩, ?_, ?_⟩
      · exact low.trans (size_push t' none _).ge
      · exact (congrArg ρ (size_push t' none _)).trans (next.trans (size_push t none _).symm)
    · show t.roots ++ [t.size] = t.roots ++ [ρ t'.size]
      rw [h.size]
  | child parent =>
    obtain ⟨-, rfl, rfl⟩ := addChild_ok hadd
    have here : t'.addChild parent node =
        (some t'.size, (t'.link parent t'.size).push (some parent) node) := if_pos inside
    have linked := h.embeds.link parent t'.size
    rw [h.size] at linked
    refine ⟨_, here, h.size.symm, ⟨?_, h.ordered.addChild inside, ?_, ?_⟩, by simp,
      (List.append_nil _).symm, (List.append_nil _).symm⟩
    · exact linked.push (by simpa using h.size) (some parent) node
    · simpa using low
    · simpa using next
  | fragment name => exact inside.elim

mutual

theorem Tracks.addSelection {t t' u : SelectionTree} {path : Path} (h : Tracks ρ t' t)
    (attach : Attach) {owner : String} {s : SelectionRequest} (inside : attach.Inside t')
    (hadd : FieldPlan.addSelection schema (attach.move ρ) owner path s t = .ok ((), u)) :
    ∃ u', FieldPlan.addSelection schema attach owner path s t' = .ok ((), u') ∧ Tracks ρ u' u ∧
      t'.size < u'.size ∧ u'.roots = t'.roots ++ attach.newRoots t' ∧
        u.roots = t.roots ++ (attach.newRoots t').map ρ := by
  match s with
  | ⟨field, outputName, spread, on, arguments, directives, selections⟩ =>
    rw [FieldPlan.addSelection] at hadd
    obtain ⟨r, t₁, hlift, h₁⟩ := run_bind_ok.mp hadd
    obtain ⟨hr, ht₁⟩ := run_lift_ok.mp hlift
    obtain rfl : t₁ = t := ht₁
    obtain ⟨id, t₂, hnode, h₂⟩ := run_bind_ok.mp h₁
    obtain ⟨u₂, hnode', rfl, tracks, grown, roots', roots⟩ :=
      h.add inside (Attach.add_ok.mp hnode)
    have run : ∀ {u'}, (match r.owner with
        | some entity => FieldPlan.addSelections schema (.child t'.size) entity r.path selections
        | none => pure () : Growing Unit) u₂ = .ok ((), u') →
          FieldPlan.addSelection schema attach owner path
            ⟨field, outputName, spread, on, arguments, directives, selections⟩ t' = .ok ((), u') := by
      intro u' hu'
      rw [FieldPlan.addSelection]
      exact run_bind_ok.mpr ⟨r, t', run_lift_ok.mpr ⟨hr, rfl⟩,
        run_bind_ok.mpr ⟨_, u₂, Attach.add_ok.mpr hnode', hu'⟩⟩
    obtain ⟨resolved, entity, below⟩ := r
    cases entity with
    | some entity =>
      have inside' : t'.size < u₂.size := by omega
      obtain ⟨u', hu', tracks', size', same', same⟩ := tracks.addChildren inside' h₂
      exact ⟨u', run hu', tracks', by omega, same'.trans roots', same.trans roots⟩
    | none =>
      cases h₂
      exact ⟨u₂, run rfl, tracks, by omega, roots', roots⟩

theorem Tracks.addChildren {t t' u : SelectionTree} {path : Path} (h : Tracks ρ t' t)
    {parent : NodeId} {owner : String} {ss : List SelectionRequest} (inside : parent < t'.size)
    (hadd : FieldPlan.addSelections schema (.child (ρ parent)) owner path ss t = .ok ((), u)) :
    ∃ u', FieldPlan.addSelections schema (.child parent) owner path ss t' = .ok ((), u') ∧
      Tracks ρ u' u ∧ t'.size ≤ u'.size ∧ u'.roots = t'.roots ∧ u.roots = t.roots := by
  match ss with
  | [] =>
    cases hadd
    exact ⟨t', rfl, h, Nat.le_refl _, rfl, rfl⟩
  | s :: rest =>
    rw [FieldPlan.addSelections] at hadd ⊢
    obtain ⟨_, t₁, hs, h₁⟩ := run_bind_ok.mp hadd
    obtain ⟨u₁, hu₁, tracks, size, roots', roots⟩ :=
      h.addSelection (.child parent) inside hs
    obtain ⟨u', hu', tracks', size', same', same⟩ := tracks.addChildren (inside.trans size) h₁
    have start : u₁.roots = t'.roots ∧ t₁.roots = t.roots := by
      simpa [Attach.newRoots] using And.intro roots' roots
    exact ⟨u', run_bind_ok.mpr ⟨_, u₁, hu₁, hu'⟩, tracks', by omega, same'.trans start.1,
      same.trans start.2⟩

end

/-! ## Roots -/

/-- A tree of one root that stands in another tree at a root. -/
structure StandsAt (t' t : SelectionTree) (root : NodeId) (φ : NodeId → NodeId) (root' : NodeId) :
    Prop where
  roots : t'.roots = [root']
  inside : root' < t'.size
  place : φ root' = root
  embeds : t'.Embeds φ t
  ordered : t'.Ordered
  kind : t'.kind = t.kind

/-- A tree stands in each tree that extends it. -/
theorem Extends.tracks (ordered : t'.Ordered) (e : t'.Extends t) :
    Tracks (.shift t'.size (t.size - t'.size)) t' t where
  embeds := by
    refine ⟨fun id n hn => ?_, e.fragments, fun name f hf id hid => ?_, e.size⟩
    · have below := (Renumbering.shift t'.size (t.size - t'.size)).below
      rw [below id (lt_size hn), e.node id n hn]
      have children : n.children.map (Renumbering.shift t'.size (t.size - t'.size)) = n.children :=
        (List.map_congr_left fun c hc => below c (ordered.children id n hn c hc).2).trans
          (List.map_id _)
      have parent : n.parent.map (Renumbering.shift t'.size (t.size - t'.size)) = n.parent := by
        cases hp : n.parent with
        | none => rfl
        | some p =>
          exact congrArg some (below p ((ordered.parent id n hn p hp).trans (lt_size hn)))
      rw [Node.move, children, parent]
    · exact Renumbering.below _ id (ordered.fragments name f hf id hid)
  ordered := ordered
  low := Nat.le_refl _
  size := by
    rw [Renumbering.shift_low]
    exact Nat.add_sub_cancel' e.size

/-- Each of the selections that are added at the roots could have been added alone. -/
theorem addRoots_standAt {base tree : SelectionTree} (ordered : base.Ordered) (none : base.roots = [])
    {owner : String} {ss : List SelectionRequest} (e : base.Extends t)
    (hadd : FieldPlan.addSelections schema .root owner path ss t = .ok ((), tree)) :
    ∃ roots, tree.roots = t.roots ++ roots ∧ List.Forall₂ (fun s root => ∃ t' φ root',
      FieldPlan.addSelections schema .root owner path [s] base = .ok ((), t') ∧
        t'.StandsAt tree root φ root') ss roots := by
  induction ss generalizing t with
  | nil =>
    cases hadd
    exact ⟨[], (List.append_nil _).symm, .nil⟩
  | cons s ss ih =>
    have above : ∀ n, Attach.Above n .root := fun _ => trivial
    rw [FieldPlan.addSelections] at hadd
    obtain ⟨_, u, hs, h₁⟩ := run_bind_ok.mp hadd
    obtain ⟨u', hu', tracks, size, roots', roots⟩ :=
      (e.tracks ordered).addSelection .root trivial hs
    have extended : t.Extends u := (Extends.keeps schema t).addSelection (above _) (.refl t) hs
    have extends' : base.Extends u' := (Extends.keeps schema base).addSelection (above _) (.refl base) hu'
    have rest : u.Extends tree := (Extends.keeps schema u).addSelections (above _) (.refl u) h₁
    obtain ⟨more, htree, hall⟩ := ih (e.trans extended) h₁
    refine ⟨t.size :: more, ?_, .cons ⟨u', Renumbering.shift base.size (t.size - base.size), base.size, ?_, ?_⟩ hall⟩
    · rw [htree, roots]
      simp [Attach.newRoots, (e.tracks ordered).size]
    · rw [FieldPlan.addSelections]
      exact run_bind_ok.mpr ⟨_, u', hu', rfl⟩
    · refine ⟨by simpa [none, Attach.newRoots] using roots', size, (e.tracks ordered).size,
        rest.embeds tracks.embeds, tracks.ordered, ?_⟩
      rw [extends'.kind, rest.kind, extended.kind, e.kind]

end SelectionTree

/-- The request that consists of one of the selections, with the same fragments. -/
def Request.only (r : Request) (s : SelectionRequest) : Request := { r with selections := [s] }

/-- The requests of one root have trees that stand in the tree of the request, one at each root. -/
theorem Request.build_roots {r : Request} {tree : SelectionTree} (h : r.build schema = .ok tree) :
    List.Forall₂ (fun s root => ∃ t' φ root', (r.only s).build schema = .ok t' ∧
      t'.StandsAt tree root φ root') r.selections tree.roots := by
  obtain ⟨rootType, base, hroot, hbase, hadd⟩ := Request.build_ok.mp h
  have ordered := Request.base_ordered hbase
  have none : base.roots = [] := Request.base_keeps (P := fun t => t.roots = [])
    (SelectionTree.roots_keeps schema) (fun _ => nofun) rfl (fun _ _ _ ht => ht) hbase
  obtain ⟨roots, htree, hall⟩ := SelectionTree.addRoots_standAt ordered none (.refl base) hadd
  rw [htree, none, List.nil_append]
  refine hall.imp fun s root ⟨t', φ, root', hs, stands⟩ => ⟨t', φ, root', ?_, stands⟩
  exact Request.build_ok.mpr ⟨rootType, base, hroot, hbase, hs⟩

/-- The tree of a request is of its kind. -/
theorem Request.build_kind {r : Request} {tree : SelectionTree} (h : r.build schema = .ok tree) :
    tree.kind = r.operation := by
  obtain ⟨rootType, base, hroot, hbase, hadd⟩ := Request.build_ok.mp h
  have step := SelectionTree.kind_keeps schema r.operation
  exact step.addSelections trivial
    (Request.base_keeps step (fun _ => trivial) rfl (fun _ _ _ ht => ht) hbase) hadd

/-- The schema has a root entity for the tree of a request. -/
theorem Request.build_rootType {r : Request} {tree : SelectionTree} (h : r.build schema = .ok tree) :
    ∃ rootType, schema.rootType tree.kind = some rootType := by
  obtain ⟨rootType, -, hroot, -⟩ := Request.build_ok.mp h
  exact ⟨rootType, (Request.build_kind h).symm ▸ hroot⟩

end FieldPlan
