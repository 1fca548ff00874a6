import FieldPlan.Proofs.Planning.Node

/-!
# Properties of what is wanted

* `Planner.Selects` : the value of a kept field that a pass does not leave to the other one;
  `Selects.described` : it is what the description of the field says;
* `Planner.Wants`, `Planner.wanted_iff` : how a pass comes to want something of a field, or nothing;
* `Planner.wanted_recursion` : what holds of the values of such fields and, with what is wanted in them, of
  their objects and lists holds of what is wanted of each field;
* `Planner.wanted_induction` : what holds of the parts of fields too holds of all that is wanted;
* `Planner.wanted_regular` : no list is wanted as an object.
-/

namespace FieldPlan

namespace Planner

variable {config : SchemaConfig} {c : Planner} {pass : Pass}

/-- The value of a kept field that a pass does not leave to the other one. -/
structure Selects (config : SchemaConfig) (c : Planner) (pass : Pass) (s : Selected) (item : Item) :
    Prop where
  kept : c.Kept s
  unserved : pass = .shape → s.field.hasServices = false
  found : ∃ lineage path, c.item config s lineage path = .ok item

/-- The field has a description, and its value is what this says. -/
theorem Selects.described (built : config.build = .ok c.schema) {s : Selected} {item : Item}
    (h : Selects config c pass s item) :
    ∃ fc source, s.field.Traits config c.schema.fresh fc source ∧ item.For s fc source := by
  obtain ⟨described, -, -⟩ := SchemaConfig.build_ok built
  obtain ⟨fc, source, traits⟩ := (described _ h.kept.field).traits
  obtain ⟨lineage, path, hitem⟩ := h.found
  exact ⟨fc, source, traits, item_ok traits hitem⟩

/-- A contribution adds nothing or what is wanted of it. -/
theorem addWanted_ok {wantChild : Selected → Except PlanError (Option Wanted)} {ws ws' : List Wanted}
    {part : Contribution} (h : addWanted wantChild ws part = .ok ws') :
    ws' = ws ∨ ∃ w, ws' = ws ++ [w] ∧
      ((∃ s, part = .node s ∧ wantChild s = .ok (some w)) ∨
        ∃ field p path, part = .extracted field p ∧ w = .leaf (.ofPart field.name path)) := by
  cases part with
  | node s =>
    unfold addWanted at h
    dsimp only at h
    split at h
    · cases h
      exact .inl rfl
    · obtain ⟨r, hr, h₁⟩ := bind_ok.mp h
      cases r with
      | none =>
        cases h₁
        exact .inl rfl
      | some w =>
        cases h₁
        exact .inr ⟨w, rfl, .inl ⟨s, rfl, hr⟩⟩
  | extracted field part =>
    unfold addWanted at h
    dsimp only at h
    split at h
    · cases h
      exact .inl rfl
    · split at h
      · cases h
        exact .inr ⟨_, rfl, .inr ⟨field, part, _, rfl, rfl⟩⟩
      · cases h
        exact .inl rfl

section Wants

variable (config : SchemaConfig) (c : Planner) (pass : Pass) (depth : Nat) (isRoot : Bool) (s : Selected)
  (lineage : List NodeId) (path : Path)

/-- What a pass wants of the objects of a field that it does not leave to the other one. -/
structure Gathers (item : Item) (ws : List Wanted) : Prop where
  unserved : pass = .shape → s.field.hasServices = false
  found : c.item config s lineage path = .ok item
  composite : s.field.shape ≠ .scalar
  gathered : ∃ parts, c.expand pass path s.node.children = .ok parts ∧
    parts.foldlM (addWanted fun child => c.wanted config pass depth false child (s.id :: lineage)
      (path.child child.node.name)) [] = .ok ws

/-- Whether the shape pass keeps the value of a field of whose objects it wants nothing. -/
def keepsWhole (c : Planner) (pass : Pass) (isRoot : Bool) (s : Selected) : Bool :=
  pass = .shape && !isRoot && c.tree.hasServiceDescendants s.id

/-- What a pass wants of a field. -/
inductive Wants : Option Wanted → Prop
  | served : pass = .shape → s.field.hasServices = true → Wants none
  | scalar {item : Item} : (pass = .shape → s.field.hasServices = false) →
    c.item config s lineage path = .ok item → s.field.shape = .scalar →
      Wants (some (.leaf { item with arrangement := some {} }))
  | carried {item : Item} : Gathers config c pass depth s lineage path item [] →
    c.keepsWhole pass isRoot s = true → Wants (some (.leaf item))
  | nothing {item : Item} : Gathers config c pass depth s lineage path item [] →
    c.keepsWhole pass isRoot s = false → Wants none
  | object {item : Item} {ws : List Wanted} : Gathers config c pass depth s lineage path item ws →
    ws ≠ [] → s.field.shape = .object → Wants (some (.object item ws))
  | list {item : Item} {ws : List Wanted} : Gathers config c pass depth s lineage path item ws →
    ws ≠ [] → s.field.shape = .list → Wants (some (.list item ws))

variable {config c pass depth isRoot s lineage path}

theorem keepsWhole_iff : c.keepsWhole pass isRoot s = true ↔
    pass = .shape ∧ isRoot = false ∧ c.tree.hasServiceDescendants s.id = true := by
  simp [keepsWhole, and_assoc]

theorem wants_of_wanted {r : Option Wanted}
    (h : c.wanted config pass (depth + 1) isRoot s lineage path = .ok r) :
    Wants config c pass depth isRoot s lineage path r := by
  rw [Planner.wanted] at h
  split at h
  · rename_i served
    cases h
    obtain ⟨shaping, served⟩ : pass = .shape ∧ s.field.hasServices = true := by simpa using served
    exact .served shaping served
  · rename_i skip
    have unserved : pass = .shape → s.field.hasServices = false := by simpa using skip
    obtain ⟨item, found, h₁⟩ := bind_ok.mp h
    split at h₁
    · rename_i scalar
      cases h₁
      exact .scalar unserved found scalar
    · rename_i composite
      obtain ⟨parts, expanded, h₂⟩ := bind_ok.mp h₁
      obtain ⟨ws, all, h₃⟩ := bind_ok.mp h₂
      have gathers : Gathers config c pass depth s lineage path item ws :=
        ⟨unserved, found, composite, parts, expanded, all⟩
      cases ws with
      | nil =>
        rw [List.isEmpty_nil, if_pos rfl] at h₃
        have h₃ := Except.ok.inj h₃
        split at h₃
        · rename_i carries
          exact h₃ ▸ .carried gathers carries
        · rename_i carries
          exact h₃ ▸ .nothing gathers (Bool.eq_false_iff.mpr carries)
      | cons w ws =>
        rw [List.isEmpty_cons, if_neg Bool.false_ne_true] at h₃
        have h₃ := Except.ok.inj h₃
        cases hs : s.field.shape with
        | scalar => exact absurd hs composite
        | object =>
          rw [hs, if_neg (by decide)] at h₃
          exact h₃ ▸ .object gathers (List.cons_ne_nil _ _) hs
        | list =>
          rw [hs, if_pos rfl] at h₃
          exact h₃ ▸ .list gathers (List.cons_ne_nil _ _) hs

theorem Gathers.wanted {item : Item} {ws : List Wanted}
    (h : Gathers config c pass depth s lineage path item ws) :
    c.wanted config pass (depth + 1) isRoot s lineage path = .ok
      (if ws.isEmpty then if c.keepsWhole pass isRoot s then some (.leaf item) else none
      else some (if s.field.shape = .list then .list item ws else .object item ws)) := by
  obtain ⟨parts, expanded, all⟩ := h.gathered
  rw [Planner.wanted, if_neg (by simpa using h.unserved)]
  refine bind_ok.mpr ⟨item, h.found, ?_⟩
  rw [if_neg h.composite]
  refine bind_ok.mpr ⟨parts, expanded, bind_ok.mpr ⟨ws, all, ?_⟩⟩
  split <;> rfl

/-- How a pass comes to want something of a field, or nothing. -/
theorem wanted_iff {r : Option Wanted} : c.wanted config pass (depth + 1) isRoot s lineage path = .ok r ↔
    Wants config c pass depth isRoot s lineage path r := by
  refine ⟨wants_of_wanted, fun h => ?_⟩
  cases h with
  | served shaping served => rw [Planner.wanted, if_pos (by simp [shaping, served])]; rfl
  | scalar unserved found scalar =>
    rw [Planner.wanted, if_neg (by simpa using unserved)]
    exact bind_ok.mpr ⟨_, found, if_pos scalar⟩
  | carried gathers carries => rw [gathers.wanted, carries]; rfl
  | nothing gathers carries => rw [gathers.wanted, carries]; rfl
  | object gathers ne hs => rw [gathers.wanted, if_neg (by simpa using ne), if_neg (by simp [hs])]
  | list gathers ne hs => rw [gathers.wanted, if_neg (by simpa using ne), if_pos hs]

end Wants

/-- A pass expands a selected field to another one. -/
def Holds (c : Planner) (pass : Pass) (s s' : Selected) : Prop :=
  ∃ path parts, c.expand pass path s.node.children = .ok parts ∧ .node s' ∈ parts

/-- What a pass wants in a selected field, so that `P` holds of what it wants of the fields that it expands
the field to; the shape pass also wants parts of fields. -/
def Within (c : Planner) (pass : Pass) (P : Selected → Wanted → Prop) (s : Selected) (w : Wanted) :
    Prop :=
  (∃ s', c.Holds pass s s' ∧ P s' w) ∨
    pass = .shape ∧ ∃ field path, w = .leaf (.ofPart field path)

/-- What holds of the values of fields and, with what is wanted of them, of their objects and lists holds
of all that is wanted of a field. -/
theorem wanted_recursion (standard : c.schema.Standard) (onSchema : c.tree.Over c.schema)
    {P : Selected → Wanted → Prop}
    (scalar : ∀ {s item}, Selects config c pass s item → s.field.shape = .scalar →
      P s (.leaf { item with arrangement := some {} }))
    (carried : ∀ {s item}, Selects config c pass s item → pass = .shape → P s (.leaf item))
    (object : ∀ {s item ws}, Selects config c pass s item → s.field.shape = .object →
      (∀ w ∈ ws, c.Within pass P s w) → P s (.object item ws))
    (list : ∀ {s item ws}, Selects config c pass s item → s.field.shape = .list →
      (∀ w ∈ ws, c.Within pass P s w) → P s (.list item ws)) (depth : Nat) {isRoot : Bool} {s : Selected}
    (kept : c.Kept s) {lineage : List NodeId} {path : Path} {w : Wanted}
    (h : c.wanted config pass depth isRoot s lineage path = .ok (some w)) : P s w := by
  induction depth generalizing isRoot s lineage path w with
  | zero => cases h
  | succ depth ih =>
    have selects : ∀ {item}, (pass = .shape → s.field.hasServices = false) →
        c.item config s lineage path = .ok item → Selects config c pass s item :=
      fun unserved found => ⟨kept, unserved, lineage, path, found⟩
    have within : ∀ {item ws}, Gathers config c pass depth s lineage path item ws →
        ∀ w ∈ ws, c.Within pass P s w := by
      rintro item ws ⟨-, -, -, parts, hparts, hws⟩
      refine foldlM_ok (fun _ ws => ∀ w ∈ ws, c.Within pass P s w) hws (by simp) ?_
      intro done p rest ws ws' hsplit all hadd
      obtain rfl | ⟨w, rfl, hw⟩ := addWanted_ok hadd
      · exact all
      · refine List.forall_mem_append.mpr ⟨all, List.forall_mem_singleton.mpr ?_⟩
        obtain ⟨s', rfl, hw⟩ | ⟨field, p, path', rfl, rfl⟩ := hw
        · have hmem : .node s' ∈ parts := by simp [hsplit]
          have kept' : c.Kept s' := expand_sound standard onSchema hparts (.node s') hmem
          exact .inl ⟨s', ⟨path, parts, hparts, hmem⟩, ih kept' hw⟩
        · obtain ⟨shaping, -⟩ :=
            expand_sound standard onSchema hparts (.extracted field p) (by simp [hsplit])
          exact .inr ⟨shaping, field.name, path', rfl⟩
    cases wanted_iff.mp h with
    | scalar unserved found hs => exact scalar (selects unserved found) hs
    | carried gathers carries =>
      exact carried (selects gathers.unserved gathers.found) (keepsWhole_iff.mp carries).1
    | object gathers _ hs => exact object (selects gathers.unserved gathers.found) hs (within gathers)
    | list gathers _ hs => exact list (selects gathers.unserved gathers.found) hs (within gathers)

/-- What holds in the shape pass of the parts of fields and of the values of fields and, with what is
wanted of them, of their objects and lists holds of all that is wanted. -/
theorem wanted_induction (standard : c.schema.Standard) (onSchema : c.tree.Over c.schema)
    {P : Wanted → Prop} (part : pass = .shape → ∀ field path, P (.leaf (.ofPart field path)))
    (leaf : ∀ {s item} arrangement, Selects config c pass s item →
      P (.leaf { item with arrangement := arrangement }))
    (object : ∀ {s item ws}, Selects config c pass s item → s.field.shape = .object →
      (∀ w ∈ ws, P w) → P (.object item ws))
    (list : ∀ {s item ws}, Selects config c pass s item → s.field.shape = .list →
      (∀ w ∈ ws, P w) → P (.list item ws)) (depth : Nat) {isRoot : Bool} {s : Selected}
    (kept : c.Kept s) {lineage : List NodeId} {path : Path} {w : Wanted}
    (h : c.wanted config pass depth isRoot s lineage path = .ok (some w)) : P w := by
  have each : ∀ {s w}, c.Within pass (fun _ => P) s w → P w := by
    rintro s w (⟨s', -, holds⟩ | ⟨shaping, field, path, rfl⟩)
    · exact holds
    · exact part shaping field path
  exact wanted_recursion (P := fun _ => P) standard onSchema (fun selects _ => leaf _ selects)
    (fun selects _ => leaf _ selects)
    (fun selects hshape all => object selects hshape fun w hw => each (all w hw))
    (fun selects hshape all => list selects hshape fun w hw => each (all w hw)) depth kept h

end Planner

/-- No list is wanted as an object. -/
theorem Planner.wanted_regular {config : SchemaConfig} {c : Planner}
    (standard : c.schema.Standard) (onSchema : c.tree.Over c.schema) {pass : Pass} {depth : Nat}
    {isRoot : Bool} {s : Selected} (kept : c.Kept s) {lineage : List NodeId} {path : Path}
    {w : Wanted} (h : c.wanted config pass depth isRoot s lineage path = .ok (some w)) :
    w.Regular := by
  refine wanted_induction standard onSchema (fun _ _ _ => trivial) (fun _ _ => trivial) ?_ ?_ depth
    kept h
  · intro s item ws selects hshape all
    obtain ⟨_, _, hitem⟩ := selects.found
    obtain ⟨arguments, -, hitem⟩ := bind_ok.mp hitem
    cases hitem
    exact ⟨(FieldDef.ty_of_object hshape).2.1, Wanted.regularAll_iff.mpr all⟩
  · intro s item ws _ _ all
    exact Wanted.regularAll_iff.mpr all

end FieldPlan
