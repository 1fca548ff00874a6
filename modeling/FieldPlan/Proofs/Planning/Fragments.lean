import FieldPlan.Proofs.Planning.Flattening
import FieldPlan.Proofs.Planning.SinglePass

/-!
# Fragments are expanded in place

* `Planner.reenters_of_expand` : an expansion says that a fragment spreads itself only where it is
  reached again in its own expansion;
* `Planner.expand_ends` : no expansion goes on forever;
* `Planner.expansion_in_place` : what expansions over the tree of a request give, and how they fail.
-/

namespace FieldPlan

variable {c : Planner}

namespace Planner

/-! ## Where expansions fail -/

/-- An expansion that comes upon a spread fragment again has come there from a node that spreads it, or
from the fragments that are expanded around it. -/
theorem reenters_of_expandNode {pass : Pass} {path : Path} {fuel : Nat} {spreading : List String}
    {id : NodeId} {e : PlanError} {name : String}
    (h : c.expandNode pass path fuel spreading id = .error e) (he : e.fault = .cyclicFragment name) :
    ∃ inner, Relation.ReflTransGen c.Enters id inner ∧ c.Spreads inner name ∧
      (name ∈ spreading ∨ ∃ outer, Relation.ReflTransGen c.Enters id outer ∧ c.Spreads outer name ∧
        Relation.TransGen c.Enters outer inner) := by
  induction fuel generalizing spreading id with
  | zero =>
    cases h
    cases he
  | succ fuel ih =>
    have inside : ∀ {next n held spreading'}, c.KeepsAs id next n → c.tree.contents? n = some held →
        c.expandAll pass path fuel spreading' held = .error e →
        ∃ inner, Relation.TransGen c.Enters id inner ∧ c.Spreads inner name ∧
          (name ∈ spreading' ∨ ∃ outer, Relation.ReflTransGen c.Enters id outer ∧
            c.Spreads outer name ∧ Relation.TransGen c.Enters outer inner) := by
      intro next n held spreading' hk hc hall
      obtain ⟨child, hchild, hfail⟩ := expandAll_error hall
      have enters : c.Enters id child := ⟨next, n, held, hk, hc, hchild⟩
      obtain ⟨inner, reached, hinner, around⟩ := ih hfail
      refine ⟨inner, .head' enters reached, hinner, around.imp_right ?_⟩
      rintro ⟨outer, reached', houter, deeper⟩
      exact ⟨outer, .head enters reached', houter, deeper⟩
    obtain hp | ⟨next, n, hk⟩ | ⟨e', plain, hfail⟩ := c.expandNode_cases pass path id
    · rw [expandNode_of_prunes hp] at h
      cases h
    · obtain ⟨here, run⟩ := expandNode_of_keepsAs pass path hk
      rw [run] at h
      unfold expandKept at h
      cases hs : n.selects with
      | field f =>
        rw [hs] at h
        dsimp only at h
        split at h <;> cases h
      | inline =>
        rw [hs] at h
        have held : c.tree.contents? n = some n.children := by
          unfold SelectionTree.contents?
          rw [hs]
        obtain ⟨inner, reached, hinner, around⟩ := inside hk held h
        exact ⟨inner, reached.to_reflTransGen, hinner, around⟩
      | spread name' =>
        rw [hs] at h
        dsimp only at h
        cases hf : c.tree.fragments.find? name' with
        | none =>
          rw [hf] at h
          cases h
          cases he
        | some f =>
          rw [hf] at h
          dsimp only at h
          have spreads : c.Spreads id name' := ⟨next, n, f, hk, hs, hf⟩
          split at h
          · rename_i around
            cases h
            cases he
            exact ⟨id, .refl, spreads, .inl (by simpa using around)⟩
          · obtain ⟨inner, reached, hinner, around⟩ := inside hk (contents_of_spread hs hf) h
            refine ⟨inner, reached.to_reflTransGen, hinner, ?_⟩
            obtain around | outside := around
            · obtain rfl | around := List.mem_cons.mp around
              · exact .inr ⟨id, .refl, spreads, reached⟩
              · exact .inl around
            · exact .inr outside
    · rw [hfail] at h
      cases h
      rw [he] at plain
      exact absurd trivial plain

/-- An expansion fails for a fragment that spreads itself only where the fragment is spread inside its
own expansion. -/
theorem reenters_of_expand {pass : Pass} {path : Path} {ids : List NodeId} {e : PlanError}
    {name : String} (h : c.expand pass path ids = .error e) (he : e.fault = .cyclicFragment name) :
    c.Reenters ids name := by
  obtain ⟨id, hid, hfail⟩ := expandAll_error h
  obtain ⟨inner, -, hinner, around | ⟨outer, reached, houter, deeper⟩⟩ :=
    reenters_of_expandNode hfail he
  · cases around
  · exact ⟨id, hid, outer, inner, reached, houter, deeper, hinner⟩

/-- Over an ordered tree an expansion that may take the steps of a walk comes to an end. -/
theorem expandNode_ends (inPlace : c.schema.InPlace) (ordered : c.tree.Ordered) {pass : Pass}
    {path : Path} {fuel : Nat} {spreading : List String} {id : NodeId} (hid : id < c.tree.size)
    (room : c.tree.steps spreading id ≤ fuel) {e : PlanError}
    (h : c.expandNode pass path fuel spreading id = .error e) : e.fault ≠ .endlessExpansion := by
  induction fuel generalizing spreading id with
  | zero =>
    have : 0 < c.tree.steps spreading id := SelectionTree.steps_pos hid
    omega
  | succ fuel ih =>
    have inside : ∀ {held spreading'}, (∀ child ∈ held, child < c.tree.size ∧
        c.tree.steps spreading' child < c.tree.steps spreading id) →
        c.expandAll pass path fuel spreading' held = .error e → e.fault ≠ .endlessExpansion := by
      intro held spreading' fewer hall
      obtain ⟨child, hchild, hfail⟩ := expandAll_error hall
      obtain ⟨inTree, hsteps⟩ := fewer child hchild
      exact ih inTree (by omega) hfail
    obtain hp | ⟨next, n, hk⟩ | ⟨e', plain, hfail⟩ := c.expandNode_cases pass path id
    · rw [expandNode_of_prunes hp] at h
      cases h
    · obtain rfl := hk.inPlace inPlace
      obtain ⟨here, run⟩ := expandNode_of_keepsAs pass path hk
      rw [run] at h
      unfold expandKept at h
      split at h
      · split at h
        · cases h
          nofun
        · rename_i f hf
          split at h
          · cases h
            nofun
          · rename_i hnew
            refine inside (fun child hchild => ⟨ordered.fragments _ f hf child hchild, ?_⟩) h
            exact SelectionTree.steps_spread child hf (by simpa using hnew) hid
      · refine inside (fun child hchild => ?_) h
        obtain ⟨later, inTree⟩ := ordered.children next n hk.1 child hchild
        exact ⟨inTree, SelectionTree.steps_child spreading later hid⟩
      · split at h <;> cases h
    · rw [hfail] at h
      cases h
      intro endless
      rw [endless] at plain
      exact plain trivial

/-- The expansions over an ordered tree come to an end, where directives leave nodes in their places. -/
theorem expand_ends (inPlace : c.schema.InPlace) (ordered : c.tree.Ordered) {pass : Pass} {path : Path}
    {ids : List NodeId} {e : PlanError} (h : c.expand pass path ids = .error e) :
    e.fault ≠ .endlessExpansion := by
  obtain ⟨id, -, hfail⟩ := expandAll_error h
  by_cases hid : id < c.tree.size
  · exact expandNode_ends inPlace ordered hid (c.tree.steps_lt [] id).le hfail
  · have missing : c.tree.node? id = none := Array.getElem?_eq_none (Nat.le_of_not_lt hid)
    unfold expansionDepth expandNode node at hfail
    rw [missing] at hfail
    cases hfail
    exact fun h => PlanFault.noConfusion h

/-- Expansions over the tree of a request flatten it in place. For the service pass nodes expand to the
fields that they stand for, in order and with repetitions, or the expansion fails; for the shape pass
to the same with the parts of service-backed fields in place of these. A fragment is said to spread
itself only if it is reached again in its own expansion. Where directives leave nodes in their places
no expansion goes on forever. -/
theorem expansion_in_place {request : Request} (built : request.build c.schema = .ok c.tree)
    (path : Path) (ids : List NodeId) :
    (∀ parts, c.expand .services path ids = .ok parts ↔
      ∃ ss, c.Flattens ids ss ∧ parts = ss.map .node) ∧
    (∀ parts, c.expand .shape path ids = .ok parts ↔
      ∃ ss, c.Flattens ids ss ∧ parts = ss.flatMap fun s =>
        if s.field.hasServices then s.field.extracted.map (.extracted s.field.toFieldDef)
        else [.node s]) ∧
    (∀ pass e name, c.expand pass path ids = .error e → e.fault = .cyclicFragment name →
      c.Reenters ids name) ∧
    (c.schema.InPlace → ∀ pass e, c.expand pass path ids = .error e →
      e.fault ≠ .endlessExpansion) := by
  refine ⟨fun parts => expand_services_iff, fun parts => ?_, fun pass e name => reenters_of_expand,
    fun inPlace pass e => expand_ends inPlace (Request.build_ordered built)⟩
  have shaped : ∀ ss : List Selected, (ss.map Contribution.node).flatMap Contribution.shaped =
      ss.flatMap fun s => s.contributions .shape := by
    intro ss
    rw [List.flatMap_map]
    rfl
  rw [expand_shape]
  constructor
  · intro h
    cases hs : c.expand .services path ids with
    | error e =>
      rw [hs] at h
      cases h
    | ok all =>
      rw [hs] at h
      cases h
      obtain ⟨ss, flat, rfl⟩ := expand_services_iff.mp hs
      exact ⟨ss, flat, shaped ss⟩
  · rintro ⟨ss, flat, rfl⟩
    rw [expand_services_iff.mpr ⟨ss, flat, rfl⟩]
    exact congrArg Except.ok (shaped ss)

end Planner

namespace Zeros

def spread (name : String) : SelectionRequest := ⟨none, none, some name, none, [], [], []⟩

/-- A number whose fragments both spread a third one. -/
def diamond : Request where
  operation := .query
  selections := [select "zero" [spread "left", select "negated" [select "name" []], spread "right"]]
  fragments := [⟨"left", "Number", [spread "both"]⟩, ⟨"right", "Number", [spread "both"]⟩,
    ⟨"both", "Number", [select "name" []]⟩]

def diamondPlanner : Planner :=
  { planner with tree := okOf (diamond.build schema) (by decide +kernel) }

def contributed : Contribution → String
  | .node s => s.node.name
  | .extracted field _ => field.name

def diamondParts : List Contribution :=
  okOf (diamondPlanner.expand .services [] (diamondPlanner.tree.children 3)) (by decide +kernel)

end Zeros

open Zeros in
theorem expansion_in_place_diamond : ∃ ss,
    diamondPlanner.Flattens (diamondPlanner.tree.children 3) ss ∧ diamondParts = ss.map .node ∧
      ss.map (·.node.name) = ["name", "negated", "name"] := by
  obtain ⟨services, -⟩ := Planner.expansion_in_place (c := diamondPlanner)
    (eq_okOf (diamond.build schema) (by decide +kernel)) [] (diamondPlanner.tree.children 3)
  have expanded : diamondPlanner.expand .services [] (diamondPlanner.tree.children 3) =
      .ok diamondParts := eq_okOf _ _
  obtain ⟨ss, flat, parts⟩ := (services diamondParts).mp expanded
  refine ⟨ss, flat, parts, ?_⟩
  have names : diamondParts.map contributed = ["name", "negated", "name"] := by decide +kernel
  rw [parts, List.map_map] at names
  exact names

end FieldPlan
