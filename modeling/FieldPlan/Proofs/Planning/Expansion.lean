import FieldPlan.Planning.Field
import FieldPlan.Proofs.Success

/-!
# What expansions give

* `Schema.InPlace`, `Planner.keep_inPlace` : directives that leave nodes in their places;
* `Planner.keep_standard` : the directives of described schemas leave alone what they keep;
* `SelectionTree.Over`, `Planner.Kept` : the fields of a tree are fields of the schema; a selected
  field that no directive prunes;
* `Planner.expand_sound` : an expansion contributes such fields and parts of such fields.
-/

namespace FieldPlan

variable {c : Planner}

/-! ## Directives -/

theorem Directive.conditional_keeps {name description : String} {k : Bool} {id next : NodeId}
    {arguments : Dict Json}
    (h : (Directive.conditional name description k).processField id arguments = .ok (some next)) :
    next = id ∧
      ∀ e, (Directive.conditional name description k).processExpression e arguments = .ok (some e) := by
  obtain ⟨b, hb, h⟩ := bind_ok.mp h
  by_cases hk : (b == k) = true
  · rw [if_pos hk] at h
    cases h
    refine ⟨rfl, fun e => bind_ok.mpr ⟨b, hb, ?_⟩⟩
    rw [if_pos hk]
    rfl
  · rw [if_neg hk] at h
    cases h

/-- The directives of a schema that was built from a description. -/
def Schema.Standard (schema : Schema) : Prop :=
  schema.directives = [("include", .includeIf), ("skip", .skipIf)]

theorem Schema.Standard.conditional {schema : Schema} (h : schema.Standard) {name : String}
    {d : Directive} (hd : schema.directives.find? name = some d) :
    ∃ description k, d = .conditional name description k := by
  rw [h, Dict.find?_cons, Dict.find?_cons, Dict.find?_nil] at hd
  split at hd
  · rename_i hn
    cases hd
    exact hn ▸ ⟨_, _, rfl⟩
  · split at hd
    · rename_i hn
      cases hd
      exact hn ▸ ⟨_, _, rfl⟩
    · cases hd

/-- What directives keep they leave in its place. -/
def Schema.InPlace (schema : Schema) : Prop :=
  ∀ name d, schema.directives.find? name = some d → ∀ id arguments next,
    d.processField id arguments = .ok (some next) → next = id

theorem Schema.Standard.inPlace {schema : Schema} (h : schema.Standard) : schema.InPlace := by
  intro name d hd id arguments next hkeep
  obtain ⟨description, k, rfl⟩ := h.conditional hd
  exact (Directive.conditional_keeps hkeep).1

theorem Planner.keep_inPlace (inPlace : c.schema.InPlace) {path : Path} {location : Location}
    {id next : NodeId} {uses : List DirectiveUse}
    (h : c.keep path location id uses = .ok (some next)) : next = id := by
  induction uses generalizing id with
  | nil =>
    cases h
    rfl
  | cons use rest ih =>
    rw [Planner.keep] at h
    obtain ⟨r, hr, hrest⟩ := bind_ok.mp h
    cases r with
    | none => cases hrest
    | some current =>
      unfold Planner.applyDirective at hr
      cases hd : c.schema.directives.find? use.name with
      | none =>
        rw [hd] at hr
        cases hr
      | some d =>
        rw [hd] at hr
        dsimp only at hr
        split at hr
        · obtain rfl := inPlace _ d hd _ _ _ (mapError_ok.mp hr)
          exact ih hrest
        · cases hr

/-- What directives keep they leave as it is. -/
theorem Planner.keep_standard (standard : c.schema.Standard) {path : Path} {location : Location}
    {id next : NodeId} {uses : List DirectiveUse}
    (h : c.keep path location id uses = .ok (some next)) :
    next = id ∧ ∀ path e, c.directExpr path e uses = pure (some e) := by
  induction uses generalizing id with
  | nil =>
    cases h
    exact ⟨rfl, fun _ _ => rfl⟩
  | cons use rest ih =>
    rw [Planner.keep] at h
    obtain ⟨r, hr, hrest⟩ := bind_ok.mp h
    cases r with
    | none => cases hrest
    | some current =>
      unfold Planner.applyDirective at hr
      cases hf : c.schema.directives.find? use.name with
      | none =>
        rw [hf] at hr
        cases hr
      | some d =>
        obtain ⟨description, k, rfl⟩ := standard.conditional hf
        rw [hf] at hr
        dsimp only at hr
        split at hr
        · obtain ⟨rfl, keeps⟩ := Directive.conditional_keeps (mapError_ok.mp hr)
          obtain ⟨rfl, direct⟩ := ih hrest
          refine ⟨rfl, fun path e => ?_⟩
          rw [Planner.directExpr, hf]
          dsimp only
          rw [keeps e, ← direct path e]
          rfl
        · cases hr

/-! ## Selected fields -/

/-- A selected field that no directive prunes. -/
structure Planner.Kept (c : Planner) (s : Selected) : Prop where
  node : c.tree.node? s.id = some s.node
  selects : s.node.selects = .field s.field
  field : s.field ∈ c.schema.fields
  directed : ∃ path, c.keep path s.node.location s.id s.node.directives = .ok (some s.id)

/-- The fields that a tree selects are fields of the schema. -/
def SelectionTree.Over (tree : SelectionTree) (schema : Schema) : Prop :=
  ∀ id n f, tree.node? id = some n → n.selects = .field f → f ∈ schema.fields

/-! ## Expansions -/

/-- A contribution to a pass is a kept field, or in the shape pass a part of a service-backed field. -/
def Planner.Contributes (c : Planner) (pass : Pass) : Contribution → Prop
  | .node s => c.Kept s
  | .extracted field part => pass = .shape ∧
      ∃ f ∈ c.schema.fields, field = f.toFieldDef ∧ f.hasServices = true ∧ part ∈ f.extracted

namespace Planner

theorem node_ok {path : Path} {id : NodeId} {n : Node} (h : c.node path id = .ok n) :
    c.tree.node? id = some n := by
  unfold Planner.node at h
  split at h
  · cases h
    assumption
  · cases h

theorem expandNode_sound (standard : c.schema.Standard) (onSchema : c.tree.Over c.schema) {pass : Pass}
    {path : Path} {fuel : Nat} {spreading : List String} {id : NodeId} {parts : List Contribution}
    (h : c.expandNode pass path fuel spreading id = .ok parts) : ∀ x ∈ parts, c.Contributes pass x := by
  induction fuel generalizing spreading id parts with
  | zero => cases h
  | succ fuel ih =>
    have below : ∀ {spreading ids parts}, List.mapM (c.expandNode pass path fuel spreading) ids =
        .ok parts → ∀ x ∈ parts.flatten, c.Contributes pass x := by
      intro spreading ids parts hall x hx
      obtain ⟨part, hpart, hx⟩ := List.mem_flatten.mp hx
      obtain ⟨id, -, hid⟩ := exists_of_mapM_ok hall hpart
      exact ih hid x hx
    rw [Planner.expandNode] at h
    obtain ⟨written, hwritten, h₁⟩ := bind_ok.mp h
    obtain ⟨r, hkeep, h₂⟩ := bind_ok.mp h₁
    cases r with
    | none =>
      cases h₂
      intro x hx
      cases hx
    | some next =>
      obtain ⟨rfl, -⟩ := keep_standard standard hkeep
      obtain ⟨n, hn, h₃⟩ := bind_ok.mp h₂
      have hfound := node_ok hwritten
      obtain rfl : written = n := Option.some.inj (hfound.symm.trans (node_ok hn))
      split at h₃
      · split at h₃
        · cases h₃
        · split at h₃
          · cases h₃
          · obtain ⟨all, hall, h₄⟩ := bind_ok.mp h₃
            cases h₄
            exact below hall
      · obtain ⟨all, hall, h₄⟩ := bind_ok.mp h₃
        cases h₄
        exact below hall
      · rename_i f hf
        split at h₃
        · cases h₃
          have kept : c.Kept ⟨next, written, f⟩ :=
            ⟨hfound, hf, onSchema next written f hfound hf, ⟨_, hkeep⟩⟩
          intro x hx
          cases pass with
          | services =>
            cases List.mem_singleton.mp hx
            exact kept
          | shape =>
            unfold Selected.contributions at hx
            dsimp only at hx
            split at hx
            · rename_i hs
              obtain ⟨part, hpart, rfl⟩ := List.mem_map.mp hx
              exact ⟨rfl, f, kept.field, rfl, hs, hpart⟩
            · cases List.mem_singleton.mp hx
              exact kept
        · cases h₃
          intro x hx
          cases hx

theorem expand_sound (standard : c.schema.Standard) (onSchema : c.tree.Over c.schema) {pass : Pass}
    {path : Path} {ids : List NodeId} {parts : List Contribution}
    (h : c.expand pass path ids = .ok parts) : ∀ x ∈ parts, c.Contributes pass x := by
  obtain ⟨all, hall, h⟩ := bind_ok.mp h
  cases h
  intro x hx
  obtain ⟨part, hpart, hx⟩ := List.mem_flatten.mp hx
  obtain ⟨id, -, hid⟩ := exists_of_mapM_ok hall hpart
  exact expandNode_sound standard onSchema hid x hx

end Planner

end FieldPlan
