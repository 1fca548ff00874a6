import FieldPlan.Proofs.Selection.Tree

/-!
# Ordered trees

* `SelectionTree.Ordered` : children come after their parents, and all links lead to nodes;
* `SelectionTree.Ordered.keeps` : adding nodes keeps trees ordered;
* `Request.build_ordered` : so the tree of a request is ordered.
-/

namespace FieldPlan

variable {node : Node}

namespace SelectionTree

variable {t t' : SelectionTree} {id : NodeId}

/-! ## Adding nodes -/

theorem node_push (t : SelectionTree) (parent : Option NodeId) (node : Node) (id : NodeId) :
    (t.push parent node).node? id =
      if id = t.size then some { node with parent := parent, children := [] } else t.node? id := by
  unfold node? push
  rw [Array.getElem?_push]
  rfl

@[simp] theorem size_push (t : SelectionTree) (parent : Option NodeId) (node : Node) :
    (t.push parent node).size = t.size + 1 := Array.size_push _

@[simp] theorem size_link (t : SelectionTree) (parent child : NodeId) :
    (t.link parent child).size = t.size := Array.size_modify

/-- A node with a link to another one, if it is the parent. -/
def linked (parent child id : NodeId) (n : Node) : Node :=
  if parent = id then { n with children := n.children ++ [child] } else n

theorem node_link (t : SelectionTree) (parent child id : NodeId) :
    (t.link parent child).node? id = (t.node? id).map (linked parent child id) := by
  unfold node? link linked
  dsimp only
  rw [Array.getElem?_modify]
  by_cases hp : parent = id <;> simp [hp]

/-! ## Ordered trees -/

/-- Children come after their parents, and the links of nodes and fragments lead to nodes. -/
structure Ordered (t : SelectionTree) : Prop where
  children : ∀ id n, t.node? id = some n → ∀ child ∈ n.children, id < child ∧ child < t.size
  parent : ∀ id n, t.node? id = some n → ∀ p, n.parent = some p → p < id
  fragments : ∀ name f, t.fragments.find? name = some f → ∀ child ∈ f.children, child < t.size

theorem Ordered.empty (kind : OperationKind) : (SelectionTree.empty kind).Ordered where
  children id n h := by simp [node?, SelectionTree.empty] at h
  parent id n h := by simp [node?, SelectionTree.empty] at h
  fragments name f h := by cases h

theorem Ordered.push (h : t.Ordered) (node : Node) : (t.push none node).Ordered where
  children id n hn child hc := by
    rw [node_push] at hn
    rw [size_push]
    split at hn
    · cases hn
      cases hc
    · have ⟨hlt, hsize⟩ := h.children id n hn child hc
      exact ⟨hlt, Nat.lt_succ_of_lt hsize⟩
  parent id n hn p hp := by
    rw [node_push] at hn
    split at hn
    · cases hn
      cases hp
    · exact h.parent id n hn p hp
  fragments name f hf child hc := by
    rw [size_push]
    exact Nat.lt_succ_of_lt (h.fragments name f hf child hc)

theorem Ordered.addChild (h : t.Ordered) {parent : NodeId} (hp : parent < t.size) :
    ((t.link parent t.size).push (some parent) node).Ordered where
  children id n hn child hc := by
    rw [node_push, size_link, node_link] at hn
    rw [size_push, size_link]
    split at hn
    · cases hn
      cases hc
    · obtain ⟨m, hm, rfl⟩ := Option.map_eq_some_iff.mp hn
      unfold linked at hc
      split at hc
      · rename_i here
        rcases List.mem_append.mp hc with hc | hc
        · have ⟨hlt, hsize⟩ := h.children id m hm child hc
          exact ⟨hlt, Nat.lt_succ_of_lt hsize⟩
        · cases List.mem_singleton.mp hc
          exact ⟨here ▸ hp, Nat.lt_succ_self _⟩
      · have ⟨hlt, hsize⟩ := h.children id m hm child hc
        exact ⟨hlt, Nat.lt_succ_of_lt hsize⟩
  parent id n hn p hpar := by
    rw [node_push, size_link, node_link] at hn
    split at hn
    · rename_i here
      cases hn
      cases hpar
      exact here ▸ hp
    · obtain ⟨m, hm, rfl⟩ := Option.map_eq_some_iff.mp hn
      refine h.parent id m hm p ?_
      unfold linked at hpar
      split at hpar <;> exact hpar
  fragments name f hf child hc := by
    rw [size_push, size_link]
    exact Nat.lt_succ_of_lt (h.fragments name f hf child hc)

theorem Ordered.addFragmentChild (h : t.Ordered) {name : String}
    (hadd : t.addFragmentChild name node = (some id, t')) : t'.Ordered := by
  obtain ⟨f, hf, -, rfl⟩ := addFragmentChild_ok hadd
  have pushed := h.push node
  refine ⟨pushed.children, pushed.parent, fun name' g hg child hc => ?_⟩
  replace hg : Dict.find? (Dict.insert _ _ _) name' = some g := hg
  show child < (t.push none node).size
  rw [size_push]
  rw [Dict.find?_insert] at hg
  split at hg
  · cases hg
    rcases List.mem_append.mp hc with hc | hc
    · exact Nat.lt_succ_of_lt (h.fragments name f hf child hc)
    · cases List.mem_singleton.mp hc
      exact Nat.lt_succ_self _
  · exact Nat.lt_succ_of_lt (h.fragments name' g hg child hc)

theorem Ordered.addFragment (h : t.Ordered) (name on : String) : (t.addFragment name on).Ordered where
  children := h.children
  parent := h.parent
  fragments name' f hf child hc := by
    replace hf : Dict.find? (Dict.insertNew t.fragments name ⟨name, on, []⟩) name' = some f := hf
    unfold Dict.insertNew at hf
    split at hf
    · exact h.fragments name' f hf child hc
    · rw [Dict.find?_append, Dict.find?_cons, Dict.find?_nil] at hf
      cases known : t.fragments.find? name' with
      | some g =>
        rw [known] at hf
        cases hf
        exact h.fragments name' f known child hc
      | none =>
        rw [known] at hf
        split at hf <;> cases hf
        cases hc

/-- Adding nodes keeps trees ordered. -/
theorem Ordered.keeps (schema : Schema) : Attach.Keeps schema (fun _ => True) Ordered := by
  intro attach node id t t' _ h _ hadd
  refine ⟨?_, trivial⟩
  cases attach with
  | root =>
    cases hadd
    have pushed := h.push node
    exact ⟨pushed.children, pushed.parent, pushed.fragments⟩
  | child parent =>
    obtain ⟨hp, -, rfl⟩ := addChild_ok hadd
    exact h.addChild hp
  | fragment name => exact h.addFragmentChild hadd

end SelectionTree

theorem Request.base_ordered {schema : Schema} {base : SelectionTree} {r : Request}
    (h : r.base schema = .ok base) : base.Ordered :=
  Request.base_keeps (SelectionTree.Ordered.keeps schema) (fun _ => trivial) (.empty r.operation)
    (fun _ name on ht => ht.addFragment name on) h

/-- The tree of a request is ordered. -/
theorem Request.build_ordered {schema : Schema} {t : SelectionTree} {r : Request}
    (h : r.build schema = .ok t) : t.Ordered := by
  obtain ⟨root, base, -, hbase, hroots⟩ := Request.build_ok.mp h
  exact (SelectionTree.Ordered.keeps schema).addSelections trivial (Request.base_ordered hbase) hroots

end FieldPlan
