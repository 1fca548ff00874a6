import FieldPlan.Proofs.Planning.TwoPasses
import FieldPlan.Proofs.Planning.Typing

/-!
# Forms of results

* `Wanted.Forms` : a value has the form of what is wanted: its objects hold just the wanted names, in
  their order;
* `Wanted.Unfolded`, `Planner.wanted_unfolded` : no object or list of an entity is wanted as it comes; so
  it is outside the shape pass;
* `Renders.formed` : what the type of a rendering describes has the form of what is wanted;
* `Planner.results_formed` : so do the results of a planned root field, unless its service pass is missing
  where the shape pass left something to it.
-/

namespace FieldPlan

/-! ## Forms -/

mutual

/-- A value has the form of what is wanted. An object of what is wanted, and each in a list, is null or
holds just the wanted names in their order. -/
def Wanted.Forms : Wanted → Json → Prop
  | .leaf _, _ => True
  | .object _ ws, v => v = .null ∨ ∃ members, v = .obj members ∧ Wanted.FormsAll ws members
  | .list _ ws, v => v = .null ∨ ∃ items, v = .arr items ∧ ∀ item ∈ items,
      item = .null ∨ ∃ members, item = .obj members ∧ Wanted.FormsAll ws members

def Wanted.FormsAll : List Wanted → Dict Json → Prop
  | [], members => members = []
  | w :: ws, members =>
      ∃ v rest, members = (w.name, v) :: rest ∧ Wanted.Forms w v ∧ Wanted.FormsAll ws rest

end

mutual

/-- No object and no list of an entity is wanted as it comes. -/
def Wanted.Unfolded : Wanted → Prop
  | .leaf item => item.ty.entityName = none
  | .object _ ws | .list _ ws => Wanted.UnfoldedAll ws

def Wanted.UnfoldedAll : List Wanted → Prop
  | [] => True
  | w :: ws => Wanted.Unfolded w ∧ Wanted.UnfoldedAll ws

end

theorem Wanted.unfoldedAll_iff {ws : List Wanted} :
    Wanted.UnfoldedAll ws ↔ ∀ w ∈ ws, w.Unfolded := by
  induction ws with
  | nil => simp [Wanted.UnfoldedAll]
  | cons w ws ih => rw [Wanted.UnfoldedAll, ih, List.forall_mem_cons]

/-- The names of the members are the wanted ones. -/
theorem Wanted.FormsAll.keys {ws : List Wanted} {members : Dict Json}
    (h : Wanted.FormsAll ws members) : members.keys = ws.map (·.name) := by
  induction ws generalizing members with
  | nil =>
    cases h
    rfl
  | cons w ws ih =>
    obtain ⟨v, rest, rfl, -, hrest⟩ := h
    exact congrArg (w.name :: ·) (ih hrest)

theorem Wanted.forms_null (w : Wanted) : w.Forms .null := by
  cases w with
  | leaf => trivial
  | object | list => exact .inl rfl

mutual

/-- How a frame reads what is wanted does not matter to its form. -/
theorem Wanted.forms_view {frame : Frame} {τ : Ty} {w : Wanted} {v : Json}
    (h : (w.view frame τ).Forms v) : w.Forms v := by
  match w with
  | .leaf _ => trivial
  | .object _ ws =>
    exact h.imp_right fun ⟨members, hv, all⟩ => ⟨members, hv, Wanted.formsAll_view all⟩
  | .list _ ws =>
    exact h.imp_right fun ⟨items, hv, each⟩ => ⟨items, hv, fun item hitem =>
      (each item hitem).imp_right fun ⟨members, hv, all⟩ => ⟨members, hv, Wanted.formsAll_view all⟩⟩

theorem Wanted.formsAll_view {frame : Frame} {τ : Ty} {ws : List Wanted} {members : Dict Json}
    (h : Wanted.FormsAll (Wanted.viewAll frame τ ws) members) : Wanted.FormsAll ws members := by
  match ws with
  | [] => exact h
  | w :: ws =>
    obtain ⟨v, rest, rfl, hv, hrest⟩ := h
    exact ⟨v, rest, by rw [Wanted.name_view], Wanted.forms_view hv, Wanted.formsAll_view hrest⟩

end

/-! ## Renderings -/

section Renderings

variable {config : SchemaConfig} {final : PlanState}

/-- What a record type describes has the form of an object, if its fields have the forms of the members. -/
theorem Wanted.forms_object {item : Item} {ws : List Wanted} {name : String}
    {fields : List (String × Ty)} {nullable : Bool}
    (all : ∀ {members}, Ty.DescribesAll fields members → Wanted.FormsAll ws members) {v : Json}
    (h : (Ty.record name fields nullable).Describes v) : (Wanted.object item ws).Forms v :=
  h.imp_right fun ⟨members, hv, described⟩ => ⟨members, hv, all described⟩

theorem Wanted.forms_list {item : Item} {ws : List Wanted} {name : String}
    {fields : List (String × Ty)} {inner nullable : Bool}
    (all : ∀ {members}, Ty.DescribesAll fields members → Wanted.FormsAll ws members) {v : Json}
    (h : (Ty.list (.record name fields inner) nullable).Describes v) : (Wanted.list item ws).Forms v :=
  (h rfl).imp_right fun ⟨items, hv, each⟩ => ⟨items, hv, fun item hitem =>
    (each item hitem).imp_right fun ⟨members, hv, described⟩ => ⟨members, hv, all described⟩⟩

theorem Expr.describes_guardIf {needed : Bool} {guard build : Expr} {v : Json} :
    (guardIf needed guard build).ty.Describes v ↔ build.ty.Describes v := by
  rw [ty_guardIf]
  split
  · exact Ty.describes_withNullable
  · exact Iff.rfl

mutual

/-- What the type of a rendering describes has the form of what is wanted. -/
theorem Renders.formed (good : final.Good) {C e : Expr} {w : Wanted}
    (h : Renders config final C w e) {v : Json} (hv : e.ty.Describes v) : w.Forms v := by
  match h with
  | .leaf _ => trivial
  | .plain _ _ all _ =>
    exact Wanted.forms_object (all.formed good) (Expr.describes_guardIf.mp hv)
  | @Renders.wrapped _ _ _ _ e item _ fields p reads _ called all _ hty _ _ _ =>
    have tys : Expr.fieldTys (rewrapped final e p fields) = Expr.fieldTys fields := by
      refine Expr.fieldTys_map fields fun x hx => ?_
      obtain ⟨field, hf, rfl⟩ := List.mem_map.mp hx
      have renames : field.2.Renames (rewrap final e p) :=
        renames_rewrap good reads.coherent called hty
      exact renames.ty_swap (all.coherent good field hf)
    have described : (Ty.record item.name (Expr.fieldTys (rewrapped final e p fields)) true).Describes
      v := hv
    exact Wanted.forms_object (all.formed good) (tys ▸ described)
  | .items _ _ _ all _ _ =>
    exact Wanted.forms_list (all.formed good) (Expr.describes_guardIf.mp hv)
  | .fetched _ _ _ all _ _ _ _ =>
    split at hv <;> exact Wanted.forms_list (all.formed good) hv

theorem RendersAll.formed (good : final.Good) {C : Expr} {ws : List Wanted}
    {fields : List (String × Expr)} (h : RendersAll config final C ws fields) {members : Dict Json}
    (hm : Ty.DescribesAll (Expr.fieldTys fields) members) : Wanted.FormsAll ws members := by
  match h with
  | .nil => exact hm
  | .cons hw hall =>
    obtain ⟨v, rest, rfl, hv, hrest⟩ := hm
    exact ⟨v, rest, rfl, hw.formed good hv, hall.formed good hrest⟩

end

end Renderings

/-! ## Passes -/

section Passes

variable {config : SchemaConfig} {c : Planner} {frame : Frame} {s : Selected} {root : Param}
  {n n' : Nat} {w : Wanted} {plan : Plan}

/-- The results of a pass have the form of what it wants. -/
theorem PassOutcome.formed (h : PassOutcome config c frame s root n n' (some w) (some plan))
    (hroot : root.id < n) {σ : Type} (services : Services σ) {input : Json}
    (hinput : root.ty.Describes input) : Yields w.Forms (plan.run services input) := by
  intro state v next run
  have described := h.described hroot services (h.typed.1 ▸ hinput) state v next run
  obtain ⟨final, body, -, outcome, hplan⟩ := h.planned
  cases outcome with
  | @some _ body _ good _ plans =>
    cases hplan
    exact Wanted.forms_view ((plans.renders final (.refl _) good).formed good described)

/-- The service pass wants no object and no list of an entity as it comes. -/
theorem Planner.wanted_unfolded (built : config.build = .ok c.schema) (onSchema : c.tree.Over c.schema)
    (depth : Nat) {isRoot : Bool} (kept : c.Kept s) {lineage : List NodeId} {path : Path}
    (h : c.wanted config .services depth isRoot s lineage path = .ok (some w)) : w.Unfolded := by
  obtain ⟨-, standard, -⟩ := SchemaConfig.build_ok built
  have each : ∀ {s w}, c.Within .services (fun _ w => w.Unfolded) s w → w.Unfolded := by
    rintro s w (⟨s', -, unfolded⟩ | ⟨shaping, -⟩)
    · exact unfolded
    · cases shaping
  refine wanted_recursion (P := fun _ w => w.Unfolded) standard onSchema ?scalar ?carried ?object ?list
    depth kept h
  case scalar =>
    intro s item selects hshape
    obtain ⟨fc, source, -, found⟩ := selects.described built
    exact (congrArg Ty.entityName found.ty).trans (FieldDef.entity_of_scalar hshape)
  case carried =>
    intro s item _ shaping
    cases shaping
  case object | list =>
    intro s item ws _ _ all
    exact Wanted.unfoldedAll_iff.mpr fun w hw => each (all w hw)

end Passes

/-! ## Operations -/

/-- The service pass of a root field is there where the shape pass leaves something to it. -/
def PlannedField.Complete (c : Planner) (s : Selected) (field : PlannedField) : Prop :=
  c.options.separately = true → c.tree.hasAnyServices s.id = true → field.shapePass.isSome = true →
    field.servicePass.isSome = true

section Operations

variable {config : SchemaConfig} {c : Planner} (built : config.build = .ok c.schema)

include built

/-- What a planned root field contributes has the form of what is wanted of it, if its plans are complete. -/
theorem RootOutcome.formed (onSchema : c.tree.Over c.schema) (forward : c.tree.Forward)
    (bare : c.tree.Bare) {rootType : String} {s : Selected} {n n' : Nat} {field : PlannedField}
    (kept : c.Kept s) (h : RootOutcome config c rootType s n n' field) (complete : field.Complete c s) {σ : Type}
    (services : Services σ) (data : Json) :
    Yields (fun r => ∀ v, r = some v → ∃ w, c.wanted config .services (c.options.maxDepth + 1) true s []
      [s.node.name] = .ok (some w) ∧ w.Forms v) (field.run services data) := by
  obtain ⟨-, standard, -⟩ := SchemaConfig.build_ok built
  have described : (Ty.entity rootType false).Describes data := Ty.describes_of_bare rfl data
  have overData : ∀ {pass : Pass} {m m' : Nat} {w : Option Wanted} {plan : Plan},
      PassOutcome config c ⟨pass, false, true⟩ s ⟨n, "data", .entity rootType false⟩ m m' w
        (some plan) → n < m →
          Yields (fun v => ∃ x, w = some x ∧ x.Forms v) (plan.run services data) := by
    intro pass m m' w plan outcome hm
    obtain ⟨x, rfl⟩ := outcome.exists_wanted
    intro state v next run
    exact ⟨x, rfl, outcome.formed hm services described state v next run⟩
  cases h with
  | @single w plan _ pass =>
    cases plan with
    | none => exact .pure nofun
    | some plan =>
      refine .bind (overData pass (Nat.lt_succ_self n)) fun u ⟨x, hx, forms⟩ => .pure ?_
      rintro v ⟨⟩
      exact ⟨x, hx ▸ pass.wanted, forms⟩
  | @shape w plan _ unserved pass =>
    cases plan with
    | none => exact .pure nofun
    | some plan =>
      refine .bind (overData pass (Nat.lt_succ_self n)) fun u ⟨x, hx, forms⟩ => .pure ?_
      rintro v ⟨⟩
      refine ⟨x, ?_, forms⟩
      rw [← hx, ← pass.wanted]
      exact (Planner.wanted_whole standard onSchema bare _ kept fun next node leads hn =>
        SelectionTree.not_hasServices forward unserved List.mem_cons_self leads hn).symm
  | @services m w plan _ _ first pass =>
    cases plan with
    | none => exact .pure nofun
    | some plan =>
      refine .bind (overData pass first.fresh_le) fun u ⟨x, hx, forms⟩ => .pure ?_
      rintro v ⟨⟩
      exact ⟨x, hx ▸ pass.wanted, forms⟩
  | @both m w shaped shape plan two served first second =>
    cases plan with
    | none => cases complete two served rfl
    | some plan =>
      obtain ⟨x, rfl⟩ := second.exists_wanted
      have materialized : Yields shape.resultTy.Describes (shape.run services data) :=
        first.described (Nat.lt_succ_self n) services (first.typed.1 ▸ described)
      refine .bind materialized fun u hu => ?_
      split
      · refine .pure ?_
        rintro v ⟨⟩
        exact ⟨x, second.wanted, x.forms_null⟩
      · refine .bind (second.formed (Nat.lt_succ_self m) services hu) fun r forms => .pure ?_
        rintro v ⟨⟩
        exact ⟨x, second.wanted, forms⟩

/-- The results of a planned root field have the form of what is wanted of the first selection of its name
that did not fail: their objects hold just the members that are wanted, in their order, and no object of
an entity stands in them as it comes. This needs the service pass where the shape pass leaves something to
it, as the shape pass hands over more than is wanted. -/
theorem Planner.results_formed {request : Request}
    (requested : request.build c.schema = .ok c.tree) {op : PlannedOperation}
    (planned : c.plan = .ok op) {field : PlannedField} (hf : field ∈ op.fields) :
    ∃ s, s.First c.rootSelected op.errors ∧ s.node.name = field.name ∧ (field.Complete c s →
      ∀ {σ : Type} (services : Services σ) data state v next,
        field.run services data state = (.ok (some v), next) →
          ∃ w, c.wanted config .services (c.options.maxDepth + 1) true s [] [s.node.name] =
            .ok (some w) ∧ w.Unfolded ∧ w.Forms v) := by
  have onSchema := Request.build_over (SchemaConfig.indexed built) requested
  obtain ⟨rootType, p, -, rfl, settles⟩ := plan_ok built onSchema planned
  obtain ⟨ss, -, hall⟩ := settles.accepted
  obtain ⟨s, -, accepts⟩ := exists_of_forall₂ hall hf
  obtain ⟨n, n', -, outcome⟩ := accepts.planned
  refine ⟨s, accepts.first, outcome.name_eq.symm, fun complete σ services data state v next run => ?_⟩
  obtain ⟨w, wanted, forms⟩ := outcome.formed built onSchema (Request.build_forward requested)
    (Request.build_sealed requested).bare accepts.kept complete services data state (some v) next run v
    rfl
  exact ⟨w, wanted, wanted_unfolded built onSchema _ accepts.kept wanted, forms⟩

end Operations

end FieldPlan
