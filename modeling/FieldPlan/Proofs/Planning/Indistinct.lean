import FieldPlan.Proofs.Planning.Conforming
import FieldPlan.Proofs.Wanted.Indistinct

/-!
# What an observer learns of the data

* `Planner.SortsSeen` : lists are sorted by fields that may be seen;
* `Planner.wanted_indistinct` : what is wanted has one value on data that agree on what may be seen;
* `Planner.plan_indistinct` : a planned operation gives one object on such data, or fails on both.
-/

namespace FieldPlan

namespace Planner

variable {config : SchemaConfig} {c : Planner} {root : String} {answers : Answers}

/-- Lists are sorted by fields that may be seen. Expansion does not check this: keys are looked up by their
names only. -/
def SortsSeen (config : SchemaConfig) (c : Planner) : Prop :=
  ∀ s item, Selects config c .services s item → ∀ a, item.arrangement = some a → ∀ key ∈ a.order,
    ∀ f ∈ c.schema.fields, item.ty.elementEntity = some f.owner → f.name = key.1 →
      c.authorizer f = true

/-! ## Values -/

/-- What is wanted of a field that may be seen has one value on values of its owner that agree. -/
def OneValued (config : SchemaConfig) (c : Planner) (answers : Answers) (s : Selected) (w : Wanted) : Prop :=
  c.authorizer s.field = true → ∀ nullable parent parent',
    config.Indistinct c.schema c.authorizer (.entity s.field.owner nullable) parent parent' →
      ∀ called, w.value config answers called parent = w.value config answers called parent'

/-- All that is wanted in objects of a field that agree has one value. -/
theorem values_indistinct (owns : c.Owns root) {s : Selected} {ws : List Wanted} (kept : c.Kept s)
    (all : ∀ w ∈ ws, c.Within .services (OneValued config c answers) s w) {name : String}
    {nullable : Bool} {v v' : Json} (entity : s.field.entity = some name)
    (same : config.Indistinct c.schema c.authorizer (.entity name nullable) v v') (called : Bool) :
    Wanted.values config answers called v ws = Wanted.values config answers called v' ws := by
  induction ws with
  | nil => rfl
  | cons w ws ih =>
    obtain ⟨hw, hws⟩ := List.forall_mem_cons.mp all
    obtain ⟨s', holds, here⟩ | ⟨shaping, -⟩ := hw
    · obtain rfl : name = s'.field.owner :=
        Option.some.inj (entity.symm.trans (owns.below _ s s' kept holds))
      rw [Wanted.values, Wanted.values, here holds.authorized nullable v v' same called, ih hws]
    · cases shaping

section Values

variable (answers) (built : config.build = .ok c.schema)

include built

/-- The values that a selected field itself has on values of its owner that agree. -/
theorem Selects.indistinct {pass : Pass} {s : Selected} {item : Item}
    (h : Selects config c pass s item) (seen : c.authorizer s.field = true) {nullable : Bool}
    {parent parent' : Json} (same : config.Indistinct c.schema c.authorizer
      (.entity s.field.owner nullable) parent parent') :
    Option.Rel (config.Indistinct c.schema c.authorizer s.field.ty)
      (item.source.value answers item.arguments parent)
      (item.source.value answers item.arguments parent') := by
  obtain ⟨fc, source, traits, found⟩ := h.described built
  rw [found.source]
  exact same.value answers h.kept.field rfl traits.source? seen item.arguments

/-- A single object that is not paged has values that agree, or none where it is sorted. -/
theorem Selects.indistinct_object (unpaged : config.Unpaged c.schema) {pass : Pass} {s : Selected}
    {item : Item} (h : Selects config c pass s item) (hshape : s.field.shape = .object)
    (seen : c.authorizer s.field = true) {nullable : Bool} {parent parent' : Json}
    (same : config.Indistinct c.schema c.authorizer (.entity s.field.owner nullable) parent parent') :
    Option.Rel (config.Indistinct c.schema c.authorizer s.field.ty) (item.value config answers parent)
      (item.value config answers parent') := by
  obtain ⟨fc, source, traits, found⟩ := h.described built
  refine rel_bind (h.indistinct answers built seen same) fun u u' hu => ?_
  cases ha : item.arrangement with
  | none => exact .none
  | some a =>
    show Option.Rel _ (a.value config answers item.ty.elementEntity u)
      (a.value config answers item.ty.elementEntity u')
    by_cases order : a.order = []
    · obtain rfl := h.arrangement_of_object built unpaged hshape ha order
      exact .some hu
    · have none : ∀ v, a.value config answers item.ty.elementEntity v = none := by
        intro v
        rw [Ty.elementEntity, found.ty, (FieldDef.ty_of_object hshape).2.1]
        unfold Arrangement.value Json.sortByFields
        rw [if_neg (by simpa using order)]
        rfl
      rw [none, none]
      exact .none

/-- A list of objects has values that agree, as it is sorted by fields that may be seen. -/
theorem Selects.indistinct_list (sorts : SortsSeen config c) {s : Selected} {item : Item}
    (h : Selects config c .services s item) {name : String} {inner nullable : Bool}
    (hty : s.field.ty = .list (.entity name inner) nullable) (seen : c.authorizer s.field = true)
    {nullable : Bool} {parent parent' : Json}
    (same : config.Indistinct c.schema c.authorizer (.entity s.field.owner nullable) parent parent') :
    Option.Rel (config.Indistinct c.schema c.authorizer s.field.ty) (item.value config answers parent)
      (item.value config answers parent') := by
  obtain ⟨fc, source, traits, found⟩ := h.described built
  have ty := found.ty.trans hty
  refine rel_bind (h.indistinct answers built seen same) fun u u' hu => ?_
  cases ha : item.arrangement with
  | none => exact .none
  | some a =>
    rw [hty] at hu ⊢
    show Option.Rel _ (a.value config answers item.ty.elementEntity u)
      (a.value config answers item.ty.elementEntity u')
    rw [ty]
    refine hu.arranged built fun key hkey f hf owner name => ?_
    exact sorts s item h a ha key hkey f hf (by rw [ty, owner]; rfl) name

/-- Where expansions respect types and lists are sorted by fields that may be seen, what is wanted of such
a field has one value on values of its owner that agree. -/
theorem wanted_indistinct (onSchema : c.tree.Over c.schema) (owns : c.Owns root)
    (unpaged : config.Unpaged c.schema) (nestless : c.schema.Nestless) (sorts : SortsSeen config c)
    (depth : Nat) {isRoot : Bool} {s : Selected} (kept : c.Kept s)
    (seen : c.authorizer s.field = true) {lineage : List NodeId} {path : Path} {w : Wanted}
    (h : c.wanted config .services depth isRoot s lineage path = .ok (some w)) {nullable : Bool}
    {parent parent' : Json}
    (same : config.Indistinct c.schema c.authorizer (.entity s.field.owner nullable) parent parent')
    (called : Bool) :
    w.value config answers called parent = w.value config answers called parent' := by
  obtain ⟨-, standard, -⟩ := SchemaConfig.build_ok built
  refine wanted_recursion (P := OneValued config c answers) standard onSchema ?scalar ?carried ?object
    ?list depth kept h seen nullable parent parent' same called
  case scalar =>
    intro s item selects hshape seen nullable parent parent' same _
    obtain ⟨fc, source, traits, found⟩ := selects.described built
    have values := selects.indistinct answers built seen same
    have scalar : s.field.ty.entityName = none := FieldDef.entity_of_scalar hshape
    have equal := eq_of_rel (rel_imp (fun _ _ h => h.eq_of_scalar scalar) values)
    rw [Wanted.value, Wanted.value, Item.value, Item.value, equal]
  case carried =>
    intro s item _ shaping
    cases shaping
  case object =>
    intro s item ws selects hshape all seen nullable parent parent' same called
    have values :=
      selects.indistinct_object answers built unpaged hshape seen same
    obtain ⟨name, inner, hty⟩ := FieldDef.entity_of_object hshape
    have entity : s.field.entity = some name := by rw [FieldDef.entity, hty]; rfl
    rw [hty] at values
    refine eq_of_rel (rel_bind values fun u u' hu => rel_of_eq (fun _ => rfl) ?_)
    rw [hu.isNull_eq, values_indistinct owns selects.kept all entity hu (item.called called)]
  case list =>
    intro s item ws selects hshape all seen nullable parent parent' same _
    obtain ⟨name, inner, _, hty⟩ :=
      FieldDef.entity_of_list hshape (nestless _ selects.kept.field hshape)
    have values := selects.indistinct_list answers built sorts hty seen same
    have entity : s.field.entity = some name := by rw [FieldDef.entity, hty]; rfl
    rw [hty] at values
    refine eq_of_rel (rel_bind values fun u u' hu => rel_of_eq (fun _ => rfl) ?_)
    obtain rfl | ⟨items, items', rfl, rfl, each⟩ := hu.items
    · rfl
    · have rows := mapM_related (S := Eq) each
        (f := fun v => (Wanted.values config answers false v ws).map Json.obj)
        (g := fun v => (Wanted.values config answers false v ws).map Json.obj)
        fun v v' hv => rel_of_eq (fun _ => rfl) (by rw [values_indistinct owns selects.kept all entity hv false])
      rw [List.forall₂_eq_eq_eq] at rows
      rw [Json.forItems, Json.forItems, eq_of_rel rows]

end Values

/-- Where expansions respect types and lists are sorted by fields that may be seen, a planned operation
gives one object on two values of the root type that differ in members only that no field that may be seen
and no service call reads, or fails on both. Members are read from objects and from null, no single object
is paged, there are no lists of lists of entities, and two passes divide what is wanted. -/
theorem plan_indistinct {request : Request} (built : config.build = .ok c.schema)
    (requested : request.build c.schema = .ok c.tree) (owns : c.Owns root)
    (unpaged : config.Unpaged c.schema) (nestless : c.schema.Nestless) (sorts : SortsSeen config c)
    (agree : config.PartsAgree) (divides : c.Divides) {op : PlannedOperation} (planned : c.plan = .ok op)
    (clean : op.errors = []) {σ : Type} {services : Services σ} (hs : services.AnswerBy answers)
    (respect : answers.Respect) {data data' : Json}
    (same : config.Indistinct c.schema c.authorizer (.entity root false) data data')
    (readable : ∀ s ∈ c.rootSelected, ∀ w,
      c.wanted config .services (c.options.maxDepth + 1) true s [] [s.node.name] = .ok (some w) →
        w.Readable config answers false data ∧ w.Readable config answers false data') :
    ∃ r, Computes (runFields services op.fields data) r ∧
      Computes (runFields services op.fields data') r := by
  have onSchema := Request.build_over (SchemaConfig.indexed built) requested
  have forward := Request.build_forward requested
  have bare := (Request.build_sealed requested).bare
  obtain ⟨rootType, -, -, all⟩ := plan_clean built onSchema planned clean
  refine runFields_agree (forall₂_of_left all all ?_)
  rintro s hfirst field field' ⟨n, n', outcome⟩ ⟨m, m', outcome'⟩
  have selected := Selected.mem_of_mem_firsts hfirst
  have kept := kept_of_rootSelected built onSchema selected
  obtain ⟨w, wanted, -⟩ :=
    outcome.plannable built onSchema forward divides agree bare unpaged (.root selected) kept
  obtain ⟨reads, reads'⟩ := readable s selected w wanted
  have equal : w.value config answers false data = w.value config answers false data' :=
    wanted_indistinct answers built onSchema owns unpaged nestless sorts _ kept
      (rootSelected_authorized selected) wanted ((owns.roots s selected).symm ▸ same) false
  refine ⟨outcome.name_eq.trans outcome'.name_eq.symm, (w.value config answers false data).map some,
    outcome.computes built onSchema forward divides agree bare unpaged (.root selected) kept hs respect
      wanted reads, ?_⟩
  rw [equal]
  exact outcome'.computes built onSchema forward divides agree bare unpaged (.root selected) kept hs
    respect wanted reads'

end Planner

end FieldPlan
