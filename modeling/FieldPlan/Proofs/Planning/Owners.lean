import FieldPlan.Proofs.Planning.Divided
import FieldPlan.Proofs.Selection.OneRoot
import FieldPlan.Proofs.Selection.Standing

/-!
# Whose fields are expanded

* `Planner.Flattens.authorized` : an expansion gives fields that may be seen;
* `Planner.Flattens.owners` : where spreads fit, it gives fields of the type that its nodes stand on;
* `Planner.Owns` : so the roots stand for fields of the root type, and a field is expanded to fields of
  the entity that it selects into;
* `Planner.owns_of_fits`, `Planner.request_owns` : this holds of a request whose spreads fit.
-/

namespace FieldPlan

variable {root ty : String} {fragments : List FragmentRequest} {on : NodeId → String} {c : Planner}

/-! ## Flattenings -/

/-- What stands in place of a fragment stands on the type that the fragment stands on. -/
theorem SelectionTree.Standing.contents {t : SelectionTree} (h : t.Standing root fragments on)
    (fits : t.Fits fragments on) {id : NodeId} {n : Node} {held : List NodeId}
    (hn : t.node? id = some n) (hc : t.contents? n = some held) : ∀ child ∈ held, on child = on id := by
  intro child hchild
  unfold contents? at hc
  cases hs : n.selects with
  | field f =>
    rw [hs] at hc
    cases hc
  | inline =>
    rw [hs] at hc
    cases hc
    obtain ⟨m, hm, holds⟩ := h.below hn hchild
    obtain rfl : n = m := Option.some.inj (hn.symm.trans hm)
    rwa [hs] at holds
  | spread name =>
    rw [hs] at hc
    obtain ⟨f, hf, rfl⟩ := Option.map_eq_some_iff.mp hc
    have top : child ∈ t.listed (.fragment name) := by
      show child ∈ t.fragmentChildren name
      rwa [fragmentChildren, hf]
    obtain ⟨declared, known, named, stands⟩ := h.listed (.fragment name) child top
    rw [← stands]
    exact fits id n name hn hs declared known named

namespace Planner

/-- Nodes stand for fields that may be seen. -/
theorem Flattens.authorized {ids : List NodeId} {ss : List Selected} (h : c.Flattens ids ss) :
    ∀ s ∈ ss, c.authorizer s.field = true := by
  induction h with
  | nil => simp
  | pruned _ _ ih => exact ih
  | hidden _ _ _ _ ih => exact ih
  | seen _ _ seen _ ih => exact List.forall_mem_cons.mpr ⟨seen, ih⟩
  | fragment _ _ _ _ inner ih => exact List.forall_mem_append.mpr ⟨inner, ih⟩

/-- Where spreads fit, nodes that stand on a type stand for fields of it. -/
theorem Flattens.owners (inPlace : c.schema.InPlace) (standing : c.tree.Standing root fragments on)
    (fits : c.tree.Fits fragments on) {ids : List NodeId} {ss : List Selected}
    (h : c.Flattens ids ss) (hids : ∀ id ∈ ids, on id = ty) : ∀ s ∈ ss, s.field.owner = ty := by
  induction h with
  | nil => simp
  | pruned _ _ ih => exact ih (List.forall_mem_cons.mp hids).2
  | hidden _ _ _ _ ih => exact ih (List.forall_mem_cons.mp hids).2
  | seen hk hf _ _ ih =>
    obtain ⟨first, rest⟩ := List.forall_mem_cons.mp hids
    obtain rfl := hk.inPlace inPlace
    exact List.forall_mem_cons.mpr ⟨(standing.owner _ _ _ hk.1 hf).trans first, ih rest⟩
  | fragment hk hc _ _ inner ih =>
    obtain ⟨first, rest⟩ := List.forall_mem_cons.mp hids
    obtain rfl := hk.inPlace inPlace
    refine List.forall_mem_append.mpr ⟨inner fun child hchild => ?_, ih rest⟩
    exact (standing.contents fits hk.1 hc child hchild).trans first

/-! ## Expansions -/

/-- A pass expands a field to fields of its flattening. -/
theorem Holds.flattens {pass : Pass} {s s' : Selected} (h : c.Holds pass s s') :
    ∃ ss, c.Flattens s.node.children ss ∧ s' ∈ ss := by
  obtain ⟨path, parts, hparts, hs⟩ := h
  cases pass with
  | services =>
    obtain ⟨ss, flat, rfl⟩ := expand_services_iff.mp hparts
    obtain ⟨a, ha, same⟩ := List.mem_map.mp hs
    cases same
    exact ⟨ss, flat, ha⟩
  | shape =>
    rw [expand_shape] at hparts
    generalize hall : c.expand .services path s.node.children = all at hparts
    cases all with
    | error e => cases hparts
    | ok all =>
      cases hparts
      obtain ⟨ss, flat, rfl⟩ := expand_services_iff.mp hall
      obtain ⟨part, hpart, hs⟩ := List.mem_flatMap.mp hs
      obtain ⟨a, ha, rfl⟩ := List.mem_map.mp hpart
      unfold Contribution.shaped Selected.contributions at hs
      dsimp only at hs
      split at hs
      · obtain ⟨part, -, hpart⟩ := List.mem_map.mp hs
        cases hpart
      · cases List.mem_singleton.mp hs
        exact ⟨ss, flat, ha⟩

theorem Holds.authorized {pass : Pass} {s s' : Selected} (h : c.Holds pass s s') :
    c.authorizer s'.field = true := by
  obtain ⟨ss, flat, hs⟩ := h.flattens
  exact flat.authorized s' hs

theorem rootSelected_authorized {s : Selected} (h : s ∈ c.rootSelected) :
    c.authorizer s.field = true := by
  obtain ⟨root, -, ss, flat, hs⟩ := rootSelected_flattens h
  exact flat.authorized s hs

/-- What is kept at the roots are fields of the root type, and what is kept in a field are fields of the
entity that it selects into. -/
structure Owns (c : Planner) (root : String) : Prop where
  roots : ∀ s ∈ c.rootSelected, s.field.owner = root
  below : ∀ pass s s', c.Kept s → c.Holds pass s s' → s.field.entity = some s'.field.owner

/-- Expansions respect types where spreads fit. -/
theorem owns_of_fits (inPlace : c.schema.InPlace) (standing : c.tree.Standing root fragments on)
    (fits : c.tree.Fits fragments on) : c.Owns root where
  roots s hs := by
    obtain ⟨id, hid, ss, flat, hs⟩ := rootSelected_flattens hs
    refine flat.owners inPlace standing fits ?_ s hs
    exact List.forall_mem_singleton.mpr (standing.listed .root id hid)
  below pass s s' kept h := by
    obtain ⟨ss, flat, hs⟩ := h.flattens
    have stand : ∀ id ∈ s.node.children, s.field.entity = some (on id) := by
      intro id hid
      obtain ⟨n, hn, holds⟩ := standing.below kept.node hid
      obtain rfl : s.node = n := Option.some.inj (kept.node.symm.trans hn)
      rwa [kept.selects] at holds
    cases he : s.field.entity with
    | none =>
      have nothing : s.node.children = [] := by
        refine List.eq_nil_iff_forall_not_mem.mpr fun id hid => ?_
        cases he.symm.trans (stand id hid)
      rw [nothing] at flat
      cases flat
      cases hs
    | some ty =>
      refine congrArg some (flat.owners inPlace standing fits (fun id hid => ?_) s' hs).symm
      exact Option.some.inj ((stand id hid).symm.trans he)

/-- The nodes of a request stand on types, and if its spreads stand on the types of their fragments, what
is kept at the roots and below a field are fields of the root type and of the entity of the field. -/
theorem request_owns {config : SchemaConfig} {request : Request} (built : config.build = .ok c.schema)
    (requested : request.build c.schema = .ok c.tree) :
    ∃ root on, c.schema.rootType c.tree.kind = some root ∧
      c.tree.Standing root request.fragments on ∧
      (c.tree.Fits request.fragments on → c.Owns root) := by
  obtain ⟨-, standard, -⟩ := SchemaConfig.build_ok built
  obtain ⟨root, on, hroot, standing⟩ := Request.build_standing (SchemaConfig.indexed built) requested
  exact ⟨root, on, Request.build_kind requested ▸ hroot, standing,
    owns_of_fits (Schema.Standard.inPlace standard) standing⟩

end Planner

end FieldPlan
