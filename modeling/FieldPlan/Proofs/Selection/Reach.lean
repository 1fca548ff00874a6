import FieldPlan.Proofs.Selection.Leaves
import FieldPlan.Proofs.Selection.Search

/-!
# What searches for services find

* `SelectionTree.Grown` : the trees that adding nodes and fragments leads to, in any order, where
  fragments may spread themselves, one another and fragments that are not declared;
* `SelectionTree.Reaches` : a node is selected below another one, or in the fragment that it spreads;
* `SelectionTree.Serves` : a field backed by a service is found along a relation between nodes;
* `SelectionTree.Grown.finds` : a search finds what selections lead to, and only what is reached;
* `SelectionTree.hasAnyServices_iff`, `SelectionTree.hasServiceDescendants_iff` : where spreads have no
  children of their own a search is exact; so it is in the tree of a request.
-/

namespace FieldPlan

namespace SelectionTree

variable {t t' : SelectionTree} {id next : NodeId}

/-! ## Trees that grow -/

/-- The trees that adding nodes and fragments leads to; selections of fragments that are not declared
are refused. -/
inductive Grown : SelectionTree → Prop
  | empty (kind : OperationKind) : Grown (.empty kind)
  | root {t : SelectionTree} (h : Grown t) (node : Node) : Grown (t.addRoot node).2
  | child {t : SelectionTree} {parent : NodeId} (h : Grown t) (hp : parent < t.size) (node : Node) :
      Grown (t.addChild parent node).2
  | fragment {t : SelectionTree} (h : Grown t) (name on : String) : Grown (t.addFragment name on)
  | fragmentChild {t : SelectionTree} (h : Grown t) (name : String) (node : Node) :
      Grown (t.addFragmentChild name node).2

theorem Grown.ordered (h : t.Grown) : t.Ordered := by
  induction h with
  | empty kind => exact .empty kind
  | root _ node ih =>
    have pushed := ih.push node
    exact ⟨pushed.children, pushed.parent, pushed.fragments⟩
  | child _ hp node ih =>
    obtain ⟨t', hadd⟩ := addChild_of_lt hp node
    obtain ⟨-, -, rfl⟩ := addChild_ok hadd
    rw [hadd]
    exact ih.addChild hp
  | fragment _ name on ih => exact ih.addFragment name on
  | @fragmentChild t _ name node ih =>
    rcases addFragmentChild_cases t name node with ⟨t', hadd⟩ | same
    · rw [hadd]
      exact ih.addFragmentChild hadd
    · rwa [same]

/-! ## What is reached -/

/-- A node is selected below another one, or in the fragment that the other one spreads. -/
inductive Reaches (t : SelectionTree) (id next : NodeId) : Prop
  | child {n : Node} : t.node? id = some n → next ∈ n.children → Reaches t id next
  | spread {n : Node} {name : String} : t.node? id = some n → n.spread? = some name →
    next ∈ t.fragmentChildren name → Reaches t id next

/-- Where spreads have no children of their own, selections lead to all that is reached. -/
theorem Reaches.leads (bare : t.Bare) (h : t.Reaches id next) : t.Leads id next := by
  cases h with
  | @child n hn hc =>
    cases hs : n.spread? with
    | none => exact .child hn hs hc
    | some name =>
      rw [bare id n name hn hs] at hc
      cases hc
  | spread hn hs hc => exact .spread hn hs hc

/-- A field backed by a service stands at a node or where a relation takes it from there. -/
def Serves (t : SelectionTree) (step : NodeId → NodeId → Prop) (id : NodeId) : Prop :=
  ∃ next n, Relation.ReflTransGen step id next ∧ t.node? next = some n ∧ n.hasServices = true

theorem Serves.mono {step step' : NodeId → NodeId → Prop} (h : t.Serves step id)
    (hstep : ∀ a b, step a b → step' a b) : t.Serves step' id := by
  obtain ⟨next, n, path, served⟩ := h
  exact ⟨next, n, Relation.ReflTransGen.mono hstep _ _ path, served⟩

theorem Serves.before {step : NodeId → NodeId → Prop} (h : t.Serves step next)
    (hstep : step id next) : t.Serves step id := by
  obtain ⟨last, n, path, served⟩ := h
  exact ⟨last, n, .head hstep path, served⟩

/-! ## What is found is reached -/

theorem reaches_below {entered : List String} {n : Node} (hn : t.node? id = some n)
    (hc : next ∈ (t.below entered n).1) : t.Reaches id next := by
  unfold below at hc
  cases hs : n.spread? with
  | none =>
    rw [hs] at hc
    exact .child hn hc
  | some name =>
    rw [hs] at hc
    dsimp only at hc
    split at hc
    · cases hc
    · exact (List.mem_append.mp hc).elim (.child hn) (.spread hn hs)

theorem foldlM_sound {depth : Nat}
    (each : ∀ {entered id}, t.search depth entered id = none → t.Serves t.Reaches id)
    {ids : List NodeId} {entered : List String}
    (h : ids.foldlM (t.search depth) entered = none) : ∃ id ∈ ids, t.Serves t.Reaches id := by
  induction ids generalizing entered with
  | nil => cases h
  | cons id ids ih =>
    rw [List.foldlM_cons] at h
    cases hid : t.search depth entered id with
    | none => exact ⟨id, List.mem_cons_self, each hid⟩
    | some between =>
      rw [hid] at h
      obtain ⟨other, ho, served⟩ := ih h
      exact ⟨other, List.mem_cons_of_mem _ ho, served⟩

/-- A search finds only what is reached. -/
theorem search_sound {depth : Nat} {entered : List String} (h : t.search depth entered id = none) :
    t.Serves t.Reaches id := by
  induction depth generalizing entered id with
  | zero => cases h
  | succ depth ih =>
    rw [search] at h
    cases hn : t.node? id with
    | none =>
      rw [hn] at h
      cases h
    | some n =>
      rw [hn] at h
      dsimp only at h
      split at h
      · rename_i served
        exact ⟨id, n, .refl, hn, served⟩
      · obtain ⟨child, hc, served⟩ := foldlM_sound ih h
        exact served.before (reaches_below hn hc)

theorem findsServices_sound {ids : List NodeId} (h : t.findsServices ids = true) :
    ∃ id ∈ ids, t.Serves t.Reaches id :=
  foldlM_sound search_sound (Option.isNone_iff_eq_none.mp h)

/-! ## What is led to is found -/

theorem findsServices_complete (forward : t.Forward) {ids : List NodeId} (hid : id ∈ ids)
    (h : t.Serves t.Leads id) : t.findsServices ids = true := by
  obtain ⟨next, n, path, hn, served⟩ := h
  by_contra missed
  have unserved := not_hasServices forward (Bool.eq_false_iff.mpr missed) hid path hn
  exact Bool.false_ne_true (unserved.symm.trans served)

/-- In a tree that grew in any way, a search finds what selections lead to, and only what is reached. -/
theorem Grown.finds (h : t.Grown) (ids : List NodeId) :
    ((∃ id ∈ ids, t.Serves t.Leads id) → t.findsServices ids = true) ∧
      (t.findsServices ids = true → ∃ id ∈ ids, t.Serves t.Reaches id) :=
  ⟨fun ⟨_, hid, served⟩ => findsServices_complete h.ordered.forward hid served, findsServices_sound⟩

/-! ## Exact searches -/

theorem findsServices_iff (forward : t.Forward) (bare : t.Bare) {ids : List NodeId} :
    t.findsServices ids = true ↔ ∃ id ∈ ids, t.Serves t.Reaches id :=
  ⟨findsServices_sound, fun ⟨_, hid, served⟩ =>
    findsServices_complete forward hid (served.mono fun _ _ h => h.leads bare)⟩

theorem hasAnyServices_iff (forward : t.Forward) (bare : t.Bare) (id : NodeId) :
    t.hasAnyServices id = true ↔ t.Serves t.Reaches id := by
  simp [hasAnyServices, findsServices_iff forward bare]

theorem hasServiceDescendants_iff (forward : t.Forward) (bare : t.Bare) (id : NodeId) :
    t.hasServiceDescendants id = true ↔ ∃ child ∈ t.children id, t.Serves t.Reaches child :=
  findsServices_iff forward bare

end SelectionTree

/-- In the tree of a request a search finds a service just where one is reached. -/
theorem Request.hasAnyServices_iff {schema : Schema} {t : SelectionTree} {r : Request}
    (h : r.build schema = .ok t) (id : NodeId) :
    t.hasAnyServices id = true ↔ t.Serves t.Reaches id :=
  SelectionTree.hasAnyServices_iff (Request.build_forward h) (Request.build_sealed h).bare id

end FieldPlan
