import FieldPlan.Proofs.Selection.Reach
import Mathlib.Data.List.Range

/-!
# Selection trees are forests

A tree keeps its links twice: a node names its parent, and it is listed among the roots, below a node
or in a fragment.

* `SelectionTree.listed` : the nodes listed at a place, in the order of the list;
* `SelectionTree.Adds` : what adding a node at a place does, `SelectionTree.grow_ok`;
* `SelectionTree.Linked` : the two kinds of links agree, and later nodes are listed later;
* `SelectionTree.Forest` : every node is listed once, just where its parent says, and the nodes above it
  end at one without a parent;
* `SelectionTree.Grown.isForest` : what grows in any way is a forest, and how an operation changes it.
-/

namespace FieldPlan

/-- The node above those that are added at a place. -/
def Attach.parent? : Attach → Option NodeId
  | .child parent => some parent
  | _ => none

namespace SelectionTree

variable {t t' : SelectionTree} {place other : Attach} {node n : Node} {id p : NodeId} {name : String}

def parent? (t : SelectionTree) (id : NodeId) : Option NodeId := (t.node? id).bind (·.parent)

def listed (t : SelectionTree) : Attach → List NodeId
  | .root => t.roots
  | .child parent => t.children parent
  | .fragment name => t.fragmentChildren name

def listings (t : SelectionTree) : List NodeId :=
  t.roots ++ t.nodes.toList.flatMap (·.children) ++ t.fragments.flatMap (·.2.children)

/-! ## Adding nodes -/

/-- Adding a node at a place appends it to the nodes, without its earlier links, and to the list at the
place; all else stays. -/
structure Adds (t : SelectionTree) (place : Attach) (node : Node) (t' : SelectionTree) : Prop where
  size : t'.size = t.size + 1
  new : t'.node? t.size = some { node with parent := place.parent?, children := [] }
  old : ∀ id n, t.node? id = some n → t'.node? id =
    some (if place.parent? = some id then { n with children := n.children ++ [t.size] } else n)
  here : t'.listed place = t.listed place ++ [t.size]
  elsewhere : ∀ other, other ≠ place → t'.listed other = t.listed other
  once : t'.listings.Perm (t.listings ++ [t.size])

theorem perm_last (xs ys : List NodeId) (a : NodeId) : (xs ++ [a] ++ ys).Perm (xs ++ ys ++ [a]) := by
  rw [List.append_assoc, List.append_assoc]
  exact List.perm_append_comm.append_left xs

theorem modify_listings (nodes : List Node) (h : p < nodes.length) (child : NodeId) :
    ((nodes.modify p fun n => { n with children := n.children ++ [child] }).flatMap
      (·.children)).Perm (nodes.flatMap (·.children) ++ [child]) := by
  induction nodes generalizing p with
  | nil => cases h
  | cons n nodes ih =>
    cases p with
    | zero => exact perm_last n.children (nodes.flatMap (·.children)) child
    | succ p =>
      rw [List.modify_succ_cons, List.flatMap_cons, List.flatMap_cons, List.append_assoc]
      exact (ih (Nat.lt_of_succ_lt_succ h)).append_left n.children

theorem insert_listings (fragments : Dict Fragment) {f : Fragment}
    (h : fragments.find? name = some f) (child : NodeId) :
    ((fragments.insert name { f with children := f.children ++ [child] }).flatMap
      (·.2.children)).Perm (fragments.flatMap (·.2.children) ++ [child]) := by
  induction fragments with
  | nil => cases h
  | cons x fragments ih =>
    obtain ⟨known, g⟩ := x
    rw [Dict.find?_cons] at h
    rw [Dict.insert]
    split at h
    · rename_i here
      cases h
      rw [if_pos here]
      exact perm_last f.children (fragments.flatMap (·.2.children)) child
    · rename_i there
      rw [if_neg there, List.flatMap_cons, List.flatMap_cons, List.append_assoc]
      exact (ih h).append_left g.children

theorem node_size (t : SelectionTree) : t.node? t.size = none :=
  Array.getElem?_eq_none (Nat.le_refl _)

theorem node_push_new (t : SelectionTree) (parent : Option NodeId) (node : Node) :
    (t.push parent node).node? t.size = some { node with parent := parent, children := [] } := by
  rw [node_push, if_pos rfl]

theorem node_push_old {parent : Option NodeId} (h : t.node? id = some n) :
    (t.push parent node).node? id = some n := by
  rw [node_push, if_neg (Nat.ne_of_lt (lt_size h))]
  exact h

theorem children_push (t : SelectionTree) (parent : Option NodeId) (node : Node) (id : NodeId) :
    (t.push parent node).children id = t.children id := by
  unfold children
  rw [node_push]
  split
  · rename_i new
    rw [new, node_size]
    rfl
  · rfl

/-- A new node links to nowhere. -/
theorem lists_push (t : SelectionTree) (parent : Option NodeId) (node : Node) :
    (t.push parent node).nodes.toList.flatMap (·.children) = t.nodes.toList.flatMap (·.children) := by
  simp [push]

theorem adds_root (t : SelectionTree) (node : Node) : t.Adds .root node (t.addRoot node).2 where
  size := size_push t none node
  new := node_push_new t none node
  old _ _ hn := node_push_old hn
  here := rfl
  elsewhere other ho := by
    cases other with
    | root => exact absurd rfl ho
    | child p => exact children_push t none node p
    | fragment name => rfl
  once := by
    show (t.roots ++ [t.size] ++ (t.push none node).nodes.toList.flatMap (·.children) ++
      t.fragments.flatMap (·.2.children)).Perm _
    rw [lists_push, listings, List.append_assoc (t.roots ++ [t.size]),
      List.append_assoc t.roots (t.nodes.toList.flatMap _)]
    exact perm_last t.roots _ t.size

theorem adds_child (hp : p < t.size) (node : Node) :
    t.Adds (.child p) node ((t.link p t.size).push (some p) node) where
  size := by rw [size_push, size_link]
  new := by
    have new := node_push_new (t.link p t.size) (some p) node
    rwa [size_link] at new
  old id n hn := by
    refine node_push_old ?_
    rw [node_link, hn]
    simp only [Option.map_some, linked, Attach.parent?, Option.some.injEq]
  here := by
    obtain ⟨n, hn⟩ := node_of_lt hp
    show children _ p = t.children p ++ _
    rw [children_push, children, node_link, children, hn]
    simp [linked]
  elsewhere other ho := by
    cases other with
    | root => rfl
    | child q =>
      have different : p ≠ q := fun h => ho (h ▸ rfl)
      show children _ q = t.children q
      rw [children_push, children, node_link, children]
      cases t.node? q <;> simp [linked, different]
    | fragment name => rfl
  once := by
    have modified := modify_listings t.nodes.toList hp t.size
    unfold listings
    rw [lists_push, link, Array.toList_modify]
    refine ((modified.append_left t.roots).append_right _).trans ?_
    rw [← List.append_assoc]
    exact perm_last _ _ t.size

theorem adds_fragmentChild (h : t.addFragmentChild name node = (some id, t')) :
    t.Adds (.fragment name) node t' := by
  obtain ⟨f, hf, -, rfl⟩ := addFragmentChild_ok h
  refine ⟨size_push t none node, node_push_new t none node, fun _ _ hn => node_push_old hn, ?_,
    fun other ho => ?_, ?_⟩
  · show fragmentChildren _ name = t.fragmentChildren name ++ _
    simp only [fragmentChildren, Dict.find?_insert, hf, if_pos, Option.elim_some]
  · cases other with
    | root => rfl
    | child p => exact children_push t none node p
    | fragment other =>
      have different : name ≠ other := fun h => ho (h ▸ rfl)
      show fragmentChildren _ other = t.fragmentChildren other
      simp only [fragmentChildren, Dict.find?_insert, if_neg different]
  · show (t.roots ++ (t.push none node).nodes.toList.flatMap (·.children) ++ _).Perm _
    rw [lists_push, listings, List.append_assoc _ _ [t.size]]
    exact (insert_listings t.fragments hf t.size).append_left _

theorem adds_addChild (h : t.addChild p node = (some id, t')) : t.Adds (.child p) node t' := by
  obtain ⟨hp, -, rfl⟩ := addChild_ok h
  exact adds_child hp node

/-- What adding a node does. -/
theorem grow_ok (h : t.grow place node = (some id, t')) : id = t.size ∧ t.Adds place node t' := by
  cases place with
  | root =>
    cases h
    exact ⟨rfl, adds_root t node⟩
  | child parent =>
    obtain ⟨-, hid, -⟩ := addChild_ok h
    exact ⟨hid, adds_addChild h⟩
  | fragment name =>
    obtain ⟨-, -, hid, -⟩ := addFragmentChild_ok h
    exact ⟨hid, adds_fragmentChild h⟩

/-! ## Links that agree -/

/-- Every node is listed once, at a place that agrees with its parent, and lists are in the order in which
the nodes were added. -/
structure Linked (t : SelectionTree) : Prop where
  once : t.listings.Perm (List.range t.size)
  somewhere : ∀ id < t.size, ∃ place, id ∈ t.listed place
  agrees : ∀ place, ∀ id ∈ t.listed place, id < t.size ∧ t.parent? id = place.parent?
  increasing : ∀ place, (t.listed place).Pairwise (· < ·)

theorem Linked.empty (kind : OperationKind) : (SelectionTree.empty kind).Linked where
  once := List.Perm.refl []
  somewhere id h := absurd h (Nat.not_lt_zero id)
  agrees place id h := by cases place <;> cases h
  increasing place := by cases place <;> exact List.Pairwise.nil

theorem Adds.mem_listed (h : t.Adds place node t') :
    id ∈ t'.listed other ↔ id ∈ t.listed other ∨ (other = place ∧ id = t.size) := by
  by_cases same : other = place
  · subst same
    rw [h.here, List.mem_append, List.mem_singleton]
    simp
  · rw [h.elsewhere other same]
    simp [same]

theorem Adds.parent?_new (h : t.Adds place node t') : t'.parent? t.size = place.parent? := by
  rw [parent?, h.new]
  rfl

theorem Adds.parent?_old (h : t.Adds place node t') (hid : id < t.size) :
    t'.parent? id = t.parent? id := by
  obtain ⟨n, hn⟩ := node_of_lt hid
  rw [parent?, parent?, h.old id n hn, hn]
  simp only [Option.bind_some]
  split <;> rfl

/-- Adding a node keeps the links in agreement. -/
theorem Linked.add (h : t.Linked) (hadd : t.Adds place node t') : t'.Linked where
  once := by
    rw [hadd.size, List.range_succ]
    exact hadd.once.trans (h.once.append_right [t.size])
  somewhere id hid := by
    rw [hadd.size] at hid
    rcases Nat.lt_succ_iff_lt_or_eq.mp hid with old | rfl
    · obtain ⟨other, here⟩ := h.somewhere id old
      exact ⟨other, hadd.mem_listed.mpr (.inl here)⟩
    · exact ⟨place, hadd.mem_listed.mpr (.inr ⟨rfl, rfl⟩)⟩
  agrees other id hid := by
    rw [hadd.size]
    rcases hadd.mem_listed.mp hid with old | ⟨rfl, rfl⟩
    · obtain ⟨bound, parent⟩ := h.agrees other id old
      exact ⟨Nat.lt_succ_of_lt bound, (hadd.parent?_old bound).trans parent⟩
    · exact ⟨Nat.lt_succ_self _, hadd.parent?_new⟩
  increasing other := by
    by_cases same : other = place
    · subst same
      rw [hadd.here, List.pairwise_append]
      refine ⟨h.increasing other, List.pairwise_singleton _ _, fun a ha b hb => ?_⟩
      rw [List.mem_singleton.mp hb]
      exact (h.agrees other a ha).1
    · rw [hadd.elsewhere other same]
      exact h.increasing other

theorem listed_addFragment (t : SelectionTree) (name on : String) (place : Attach) :
    (t.addFragment name on).listed place = t.listed place := by
  cases place with
  | root => rfl
  | child p => rfl
  | fragment other =>
    show ((t.fragments.insertNew name ⟨name, on, []⟩).find? other).elim [] _ = _
    unfold Dict.insertNew
    split
    · rfl
    · show _ = (t.fragments.find? other).elim [] (·.children)
      rw [Dict.find?_append, Dict.find?_cons, Dict.find?_nil]
      cases t.fragments.find? other with
      | some f => rfl
      | none => split <;> rfl

theorem Linked.addFragment (h : t.Linked) (name on : String) : (t.addFragment name on).Linked where
  once := by
    have same : (t.addFragment name on).listings = t.listings := by
      unfold listings SelectionTree.addFragment Dict.insertNew
      split <;> simp
    rw [same]
    exact h.once
  somewhere id hid := by simpa only [listed_addFragment] using h.somewhere id hid
  agrees place := by
    rw [listed_addFragment]
    exact h.agrees place
  increasing place := by
    rw [listed_addFragment]
    exact h.increasing place

theorem Grown.linked (h : t.Grown) : t.Linked := by
  induction h with
  | empty kind => exact .empty kind
  | root _ node ih => exact ih.add (adds_root _ node)
  | child _ hp node ih =>
    obtain ⟨t', hadd⟩ := addChild_of_lt hp node
    rw [hadd]
    exact ih.add (adds_addChild hadd)
  | fragment _ name on ih => exact ih.addFragment name on
  | @fragmentChild t _ name node ih =>
    rcases addFragmentChild_cases t name node with ⟨t', hadd⟩ | same
    · rw [hadd]
      exact ih.add (adds_fragmentChild hadd)
    · rwa [same]

/-! ## Ancestors -/

/-- The nodes above a node: each is the parent of the one before it, added before it, and the last one
has no parent. -/
structure Ascends (t : SelectionTree) (id : NodeId) : Prop where
  steps : (id :: t.ancestors id).IsChain fun below above => t.parent? below = some above
  decreasing : (id :: t.ancestors id).Pairwise (· > ·)
  ends : ∀ last, (id :: t.ancestors id).getLast? = some last → t.parent? last = none

theorem Ordered.parent?_lt (h : t.Ordered) (hp : t.parent? id = some p) : p < id := by
  obtain ⟨n, hn, hp⟩ := Option.bind_eq_some_iff.mp hp
  exact h.parent id n hn p hp

theorem ancestors_top (h : t.parent? id = none) : t.ancestors id = [] := by
  unfold parent? at h
  rw [ancestors, h]

theorem ancestors_below (h : t.parent? id = some p) (hp : p < id) :
    t.ancestors id = p :: t.ancestors p := by
  unfold parent? at h
  rw [ancestors, h]
  exact if_pos hp

/-- Parents are followed to the end: in an ordered tree the guard that a parent comes first is met. -/
theorem Ordered.ascends (h : t.Ordered) (id : NodeId) : t.Ascends id := by
  induction id using Nat.strongRecOn with
  | ind id ih =>
    cases hp : t.parent? id with
    | none =>
      refine ⟨?_, ?_, fun last hlast => ?_⟩
      · rw [ancestors_top hp]
        exact .singleton id
      · rw [ancestors_top hp]
        exact List.pairwise_singleton _ id
      · rw [ancestors_top hp] at hlast
        cases hlast
        exact hp
    | some p =>
      have before := h.parent?_lt hp
      obtain ⟨steps, decreasing, ends⟩ := ih p before
      have above := ancestors_below hp before
      refine ⟨?_, ?_, fun last hlast => ends last ?_⟩
      · rw [above]
        exact .cons_cons hp steps
      · rw [above]
        refine List.pairwise_cons.mpr ⟨fun a ha => ?_, decreasing⟩
        rcases List.mem_cons.mp ha with rfl | ha
        · exact before
        · exact Nat.lt_trans ((List.pairwise_cons.mp decreasing).1 a ha) before
      · rwa [above, List.getLast?_cons_cons] at hlast

/-! ## Forests -/

/-- A forest: every node is listed once among the roots, the children of nodes and the selections of
fragments, and nothing else is; a node is listed below its parent, one without a parent at the top;
children come after their parents, lists are in the order of insertion, and ancestors end. -/
structure Forest (t : SelectionTree) : Prop where
  once : t.listings.Perm (List.range t.size)
  child_iff : ∀ id p, id ∈ t.children p ↔ t.parent? id = some p
  top_iff : ∀ id < t.size, t.parent? id = none ↔ id ∈ t.roots ∨ ∃ name, id ∈ t.fragmentChildren name
  later : ∀ p, ∀ child ∈ t.children p, p < child
  increasing : ∀ place, (t.listed place).Pairwise (· < ·)
  ascends : ∀ id < t.size, t.Ascends id

theorem lt_of_parent? (h : t.parent? id = some p) : id < t.size := by
  obtain ⟨n, hn, -⟩ := Option.bind_eq_some_iff.mp h
  exact lt_size hn

theorem Linked.child_iff (h : t.Linked) : id ∈ t.children p ↔ t.parent? id = some p := by
  refine ⟨fun hid => (h.agrees (.child p) id hid).2, fun hp => ?_⟩
  obtain ⟨place, hid⟩ := h.somewhere id (lt_of_parent? hp)
  have above := (h.agrees place id hid).2.symm.trans hp
  cases place with
  | child parent =>
    cases above
    exact hid
  | root => cases above
  | fragment name => cases above

theorem Linked.top_iff (h : t.Linked) (hid : id < t.size) :
    t.parent? id = none ↔ id ∈ t.roots ∨ ∃ name, id ∈ t.fragmentChildren name := by
  constructor
  · intro hp
    obtain ⟨place, here⟩ := h.somewhere id hid
    have above := (h.agrees place id here).2.symm.trans hp
    cases place with
    | child parent => cases above
    | root => exact .inl here
    | fragment name => exact .inr ⟨name, here⟩
  · rintro (root | ⟨name, top⟩)
    · exact (h.agrees .root id root).2
    · exact (h.agrees (.fragment name) id top).2

theorem Grown.forest (h : t.Grown) : t.Forest where
  once := h.linked.once
  child_iff _ _ := h.linked.child_iff
  top_iff _ := h.linked.top_iff
  later _ _ hc := h.ordered.parent?_lt (h.linked.child_iff.mp hc)
  increasing := h.linked.increasing
  ascends id _ := h.ordered.ascends id

/-! ## Growing -/

/-- The places where nodes may be added: at the roots, below a node and in a declared fragment. -/
def Offers (t : SelectionTree) : Attach → Prop
  | .root => True
  | .child parent => parent < t.size
  | .fragment name => name ∈ t.fragments.keys

instance (t : SelectionTree) (place : Attach) : Decidable (t.Offers place) :=
  match place with
  | .root => .isTrue trivial
  | .child parent => inferInstanceAs (Decidable (parent < t.size))
  | .fragment name => inferInstanceAs (Decidable (name ∈ t.fragments.keys))

theorem grow_isSome_iff (t : SelectionTree) (place : Attach) (node : Node) :
    (t.grow place node).1.isSome ↔ t.Offers place := by
  cases place with
  | root => exact ⟨fun _ => trivial, fun _ => rfl⟩
  | child parent =>
    unfold SelectionTree.grow addChild Offers
    dsimp only
    split
    · rename_i hp
      exact ⟨fun _ => hp, fun _ => rfl⟩
    · rename_i hp
      exact ⟨nofun, fun h => absurd h hp⟩
  | fragment name =>
    unfold SelectionTree.grow addFragmentChild Offers
    dsimp only
    rw [← Dict.contains_iff]
    split
    · rename_i known
      exact ⟨fun _ => known, fun _ => rfl⟩
    · rename_i unknown
      exact ⟨nofun, fun h => absurd h unknown⟩

theorem grow_adds (h : t.Offers place) :
    (t.grow place node).1 = some t.size ∧ t.Adds place node (t.grow place node).2 := by
  obtain ⟨id, hid⟩ := Option.isSome_iff_exists.mp ((grow_isSome_iff t place node).mpr h)
  obtain ⟨rfl, adds⟩ := grow_ok (Prod.ext hid rfl)
  exact ⟨hid, adds⟩

theorem addChild_refused {parent : NodeId} (h : ¬parent < t.size) :
    t.addChild parent node = (none, t) := if_neg h

theorem grow_refused (h : ¬t.Offers place) : t.grow place node = (none, t) := by
  cases place with
  | root => exact absurd trivial h
  | child parent => exact addChild_refused h
  | fragment name => exact addFragmentChild_refused h

theorem Grown.grow (h : t.Grown) (place : Attach) (node : Node) : (t.grow place node).2.Grown := by
  by_cases offered : t.Offers place
  · cases place with
    | root => exact h.root node
    | child parent => exact h.child offered node
    | fragment name => exact h.fragmentChild name node
  · rw [grow_refused offered]
    exact h

/-- A tree that grew in any way is a forest. A node is added where its place is offered, with the next
number, and then changes the tree there only; it is refused elsewhere, which changes nothing. Declaring
a fragment changes no node and no list, and nothing at all when the fragment is known. -/
theorem Grown.isForest (h : t.Grown) : t.Forest ∧
    (∀ place node, t.Offers place → (t.grow place node).1 = some t.size ∧
      t.Adds place node (t.grow place node).2) ∧
    (∀ place node, ¬t.Offers place → t.grow place node = (none, t)) ∧
    (∀ name on, (t.addFragment name on).nodes = t.nodes ∧
      ∀ place, (t.addFragment name on).listed place = t.listed place) ∧
    ∀ name on, name ∈ t.fragments.keys → t.addFragment name on = t := by
  refine ⟨h.forest, fun place node => grow_adds, fun place node => grow_refused,
    fun name on => ⟨rfl, listed_addFragment t name on⟩, fun name on known => ?_⟩
  unfold addFragment
  rw [Dict.insertNew_of_mem known]

/-- A tree with a fragment, a root and a child, all added with links to nodes that are not there. -/
theorem isForest_foreign_links :
    let foreign : Node := { Node.ofInline with parent := some 7, children := [8, 9] }
    let declared := (SelectionTree.empty .query).addFragment "Parts" "Person"
    let t := (((declared.grow (.fragment "Parts") foreign).2.grow .root foreign).2.grow
      (.child 1) foreign).2
    t.Grown ∧ t.Forest ∧ t.listings = [1, 2, 0] ∧
      t.grow (.fragment "Rest") foreign = (none, t) := by
  intro foreign declared t
  have start : declared.Grown := (Grown.empty .query).fragment "Parts" "Person"
  have grown : t.Grown :=
    ((start.grow (.fragment "Parts") foreign).grow .root foreign).grow (.child 1) foreign
  obtain ⟨forest, -, refused, -⟩ := grown.isForest
  exact ⟨grown, forest, rfl, refused (.fragment "Rest") foreign (by decide)⟩

end SelectionTree

end FieldPlan
