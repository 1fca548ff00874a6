import FieldPlan.Proofs.Planning.Agreement
import FieldPlan.Proofs.Planning.Owners
import FieldPlan.Proofs.Wanted.Conforming

/-!
# Plans on conforming data

* `Schema.Nestless` : no list of lists of entities is a field;
* `Planner.wanted_conforming` : what is wanted and can be planned has a value on conforming data;
* `Planner.plan_conforming` : a planned operation gives an object on conforming data.
-/

namespace FieldPlan

variable {config : SchemaConfig} {c : Planner} {root : String} {answers : Answers}

/-- No field selects into the entities of lists in a list. -/
def Schema.Nestless (schema : Schema) : Prop :=
  ∀ f ∈ schema.fields, f.shape = .list → ∀ t, f.ty.element? = some t → t.element? = none

/-! ## Values -/

namespace Planner

/-- What is wanted of a field and can be planned has a value on what conforms to the type of the owner. -/
def Valued (config : SchemaConfig) (c : Planner) (answers : Answers) (s : Selected) (w : Wanted) : Prop :=
  w.Plannable config c.registered → ∀ nullable parent,
    config.Conforming c.schema (.entity s.field.owner nullable) parent →
      ∀ called, ∃ r, w.value config answers called parent = some r

/-- All that is wanted in a conforming object of a field has a value. -/
theorem values_conforming (owns : c.Owns root) {s : Selected} {ws : List Wanted} (kept : c.Kept s)
    (all : ∀ w ∈ ws, c.Within .services (Valued config c answers) s w)
    (able : Wanted.PlannableAll config c.registered ws) {name : String} {nullable : Bool} {v : Json}
    (entity : s.field.entity = some name)
    (conforming : config.Conforming c.schema (.entity name nullable) v) (called : Bool) :
    ∃ vs, Wanted.values config answers called v ws = some vs := by
  refine Wanted.values_some_iff.mpr fun w hw => ?_
  obtain ⟨s', holds, valued⟩ | ⟨shaping, -⟩ := all w hw
  · obtain rfl : name = s'.field.owner :=
      Option.some.inj (entity.symm.trans (owns.below _ s s' kept holds))
    exact valued (Wanted.plannableAll_iff.mp able w hw) nullable v conforming called
  · cases shaping

section Values

variable (built : config.build = .ok c.schema) (supplies : config.Supplies c.schema answers)

include built supplies

/-- A selected field has a conforming value of its own on a conforming value of its owner. -/
theorem Selects.conforming {pass : Pass} {s : Selected} {item : Item}
    (h : Selects config c pass s item) {nullable : Bool} {parent : Json}
    (hparent : config.Conforming c.schema (.entity s.field.owner nullable) parent) :
    ∃ u, item.source.value answers item.arguments parent = some u ∧
      config.Conforming c.schema s.field.ty u := by
  obtain ⟨fc, source, traits, found⟩ := h.described built
  rw [found.source]
  exact hparent.value supplies h.kept.field rfl traits.source? traits.plain item.arguments

/-- A single object that is not paged and can be planned has a conforming value, as it is not sorted. -/
theorem Selects.conforming_object (unpaged : config.Unpaged c.schema) {pass : Pass} {s : Selected}
    {item : Item} (h : Selects config c pass s item) (hshape : s.field.shape = .object)
    (able : item.Plannable config c.registered) {nullable : Bool} {parent : Json}
    (hparent : config.Conforming c.schema (.entity s.field.owner nullable) parent) :
    ∃ u, item.value config answers parent = some u ∧ config.Conforming c.schema s.field.ty u := by
  obtain ⟨fc, source, traits, found⟩ := h.described built
  obtain ⟨u, hu, conforms⟩ := h.conforming built supplies hparent
  obtain ⟨a, ha, sorted⟩ := able.arranged
  have order : a.order = [] := by
    by_contra hne
    obtain ⟨element, _, helement, -⟩ := sorted hne
    rw [found.ty, (FieldDef.ty_of_object hshape).2.1] at helement
    cases helement
  obtain rfl := h.arrangement_of_object built unpaged hshape ha order
  refine ⟨u, ?_, conforms⟩
  rw [Item.value, hu, ha]
  rfl

/-- A list of objects that can be planned has a conforming value, as the keys that it is sorted by are
fields of its items. -/
theorem Selects.conforming_list {pass : Pass} {s : Selected} {item : Item}
    (h : Selects config c pass s item) {name : String} {inner nullable : Bool}
    (hty : s.field.ty = .list (.entity name inner) nullable)
    (able : item.Plannable config c.registered) {nullable : Bool} {parent : Json}
    (hparent : config.Conforming c.schema (.entity s.field.owner nullable) parent) :
    ∃ u, item.value config answers parent = some u ∧ config.Conforming c.schema s.field.ty u := by
  obtain ⟨fc, source, traits, found⟩ := h.described built
  obtain ⟨u, hu, conforms⟩ := h.conforming built supplies hparent
  have ty := found.ty.trans hty
  rw [hty] at conforms ⊢
  obtain ⟨a, ha, sorted⟩ := able.arranged
  have known : ∀ key ∈ a.order, ∃ source, config.source? name key.1 = some source := by
    intro key hkey
    obtain ⟨element, entity, helement, hentity, keys⟩ := sorted (List.ne_nil_of_mem hkey)
    rw [ty] at helement
    cases helement
    cases hentity
    obtain ⟨source, hs, -⟩ := keys key hkey
    exact ⟨source, hs⟩
  obtain ⟨v, hv, conforms⟩ := conforms.arranged built supplies known
  refine ⟨v, ?_, conforms⟩
  rw [Item.value, hu, ha, ty]
  exact hv

/-- Where expansions respect types, what is wanted and can be planned has a value on what conforms to the
type that its field is one of. -/
theorem wanted_conforming (onSchema : c.tree.Over c.schema) (owns : c.Owns root)
    (unpaged : config.Unpaged c.schema) (nestless : c.schema.Nestless) (depth : Nat) {isRoot : Bool}
    {s : Selected} (kept : c.Kept s) {lineage : List NodeId} {path : Path} {w : Wanted}
    (h : c.wanted config .services depth isRoot s lineage path = .ok (some w))
    (able : w.Plannable config c.registered) {nullable : Bool} {parent : Json}
    (hparent : config.Conforming c.schema (.entity s.field.owner nullable) parent) (called : Bool) :
    ∃ r, w.value config answers called parent = some r := by
  obtain ⟨-, standard, -⟩ := SchemaConfig.build_ok built
  refine wanted_recursion (P := Valued config c answers) standard onSchema ?scalar ?carried ?object ?list depth kept h
    able nullable parent hparent called
  case scalar =>
    intro s item selects _ _ nullable parent hparent _
    obtain ⟨u, hu, -⟩ := selects.conforming built supplies hparent
    exact ⟨u, by rw [Wanted.value, Item.value, hu]; rfl⟩
  case carried =>
    intro s item _ shaping
    cases shaping
  case object =>
    rintro s item ws selects hshape all ⟨able, ableAll⟩ nullable parent hparent called
    obtain ⟨u, hu, conforms⟩ := selects.conforming_object built supplies unpaged hshape able hparent
    obtain ⟨name, inner, hty⟩ := FieldDef.entity_of_object hshape
    have entity : s.field.entity = some name := by rw [FieldDef.entity, hty]; rfl
    rw [Wanted.value, hu, Option.bind_eq_bind, Option.bind_some]
    split
    · exact ⟨.null, rfl⟩
    · obtain ⟨vs, hvs⟩ :=
        values_conforming owns selects.kept all ableAll entity (hty ▸ conforms) (item.called called)
      exact ⟨.obj vs, by rw [hvs]; rfl⟩
  case list =>
    rintro s item ws selects hshape all ⟨able, -, ableAll⟩ nullable parent hparent _
    obtain ⟨name, inner, _, hty⟩ :=
      FieldDef.entity_of_list hshape (nestless _ selects.kept.field hshape)
    obtain ⟨u, hu, conforms⟩ := selects.conforming_list built supplies hty able hparent
    have entity : s.field.entity = some name := by rw [FieldDef.entity, hty]; rfl
    rw [hty] at conforms
    rw [Wanted.value, hu, Option.bind_eq_bind, Option.bind_some]
    obtain rfl | ⟨items, rfl, each⟩ := conforms.items
    · exact ⟨.null, rfl⟩
    · obtain ⟨rs, hrs⟩ : ∃ rs, items.mapM (fun v =>
          (Wanted.values config answers false v ws).map Json.obj) = some rs := by
        refine mapM_some_iff.mpr fun v hv => ?_
        obtain ⟨vs, hvs⟩ := values_conforming owns selects.kept all ableAll entity (each v hv) false
        exact ⟨.obj vs, by rw [hvs]; rfl⟩
      exact ⟨.arr rs, by rw [Json.forItems, hrs]; rfl⟩

end Values

end Planner

/-! ## Plans -/

/-- What is wanted of a planned root field can be planned, and its plans give the value of that where there
is one: in one pass, and in two if these divide what is wanted. -/
theorem RootOutcome.gives (built : config.build = .ok c.schema) (onSchema : c.tree.Over c.schema)
    (forward : c.tree.Forward) (bare : c.tree.Bare) (unpaged : config.Unpaged c.schema)
    (separate : c.options.separately = true → c.Divides ∧ config.PartsAgree) {rootType : String}
    {s : Selected} (reached : c.Reaches s) (kept : c.Kept s) {n n' : Nat} {field : PlannedField}
    (h : RootOutcome config c rootType s n n' field) :
    ∃ w, c.wanted config .services (c.options.maxDepth + 1) true s [] [s.node.name] = .ok w ∧
      (∀ x, w = some x → x.Plannable config c.registered) ∧
      ∀ {σ : Type} {services : Services σ} {answers : Answers}, services.AnswerBy answers →
        answers.Respect → ∀ {data r}, rootValue config answers data w = some r →
          Computes (field.run services data) (some r) := by
  obtain ⟨-, standard, -⟩ := SchemaConfig.build_ok built
  cases hmode : c.options.separately with
  | false =>
    cases h with
    | @single w plan single pass =>
      refine ⟨w, pass.wanted, ?_, fun hs respect _ _ hr =>
        pass.rootValue_computes standard onSchema hs respect kept hr⟩
      rintro x rfl
      have able := pass.plannable
      rwa [Wanted.view_unchanged rfl] at able
    | shape two | services two | both two => cases hmode.symm.trans two
  | true =>
    obtain ⟨divides, agree⟩ := separate hmode
    obtain ⟨w, wanted, able⟩ := h.plannable built onSchema forward divides agree bare unpaged reached kept
    refine ⟨some w, wanted, fun x hx => Option.some.inj hx ▸ able, ?_⟩
    intro σ services answers hs respect data r hr
    obtain ⟨v, hv, rfl⟩ := Option.map_eq_some_iff.mp hr
    have run := h.computes built onSchema forward divides agree bare unpaged reached kept hs respect
      wanted (Wanted.readable_of_value hv)
    rwa [hv] at run

/-- A request whose spreads fit gives an object on data that conforms to the root type, with services that
answer every call with what conforms to the type of the field. No single object is paged, and there are no
lists of lists of entities. In two passes these divide what is wanted. -/
theorem Planner.plan_conforming {request : Request} (built : config.build = .ok c.schema)
    (requested : request.build c.schema = .ok c.tree) (owns : c.Owns root)
    (unpaged : config.Unpaged c.schema) (nestless : c.schema.Nestless)
    (separate : c.options.separately = true → c.Divides ∧ config.PartsAgree) {op : PlannedOperation}
    (planned : c.plan = .ok op) (clean : op.errors = []) {σ : Type} {services : Services σ}
    (hs : services.AnswerBy answers) (respect : answers.Respect)
    (supplies : config.Supplies c.schema answers) {data : Json}
    (conforming : config.Conforming c.schema (.entity root false) data) :
    ∃ v, Computes (runFields services op.fields data) (some v) := by
  have onSchema := Request.build_over (SchemaConfig.indexed built) requested
  obtain ⟨rootType, -, -, all⟩ := plan_clean built onSchema planned clean
  refine runFields_object fun field hf => ?_
  obtain ⟨s, hfirst, n, n', outcome⟩ := exists_of_forall₂ all hf
  have selected := Selected.mem_of_mem_firsts hfirst
  have kept := kept_of_rootSelected built onSchema selected
  obtain ⟨w, wanted, able, gives⟩ := outcome.gives built onSchema (Request.build_forward requested)
    (Request.build_sealed requested).bare unpaged separate (.root selected) kept
  cases w with
  | none => exact ⟨none, gives hs respect rfl⟩
  | some w =>
    obtain ⟨r, hr⟩ := wanted_conforming built supplies onSchema owns unpaged nestless _ kept wanted
      (able w rfl) ((owns.roots s selected).symm ▸ conforming) false
    exact ⟨some r, gives hs respect (congrArg (Option.map some) hr)⟩

end FieldPlan
