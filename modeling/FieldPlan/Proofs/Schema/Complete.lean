import FieldPlan.Proofs.Schema.Registered

/-!
# Complete schemas

A schema that is built holds what was registered, and all that it names is registered.

* `Schema.Finished` : a field that is what a registration says, with the number of the field whose
  arguments it inherits;
* `Schema.Holds` : a schema that holds what was accepted and nothing else, and in which all that is
  named is registered;
* `SchemaBuilder.Holds.build` : what is built from a builder that holds what was accepted; so every
  built schema is such a schema (`Schema.Built.holds`);
* `SchemaBuilder.run_builds` : refused steps change nothing later, what is built holds what was
  accepted, and it is built just if nothing is missing.
-/

namespace FieldPlan

variable {α β : Type}

theorem forall₂_filter {R : α → β → Prop} {p : α → Bool} {q : β → Bool} {as : List α} {bs : List β}
    (h : List.Forall₂ R as bs) (same : ∀ a b, R a b → p a = q b) :
    List.Forall₂ R (as.filter p) (bs.filter q) := by
  induction h with
  | nil => exact .nil
  | @cons a b as bs hab _ ih =>
    rw [List.filter_cons, List.filter_cons, same a b hab]
    split
    · exact .cons hab ih
    · exact ih

namespace Schema

/-! ## Schemas -/

/-- The enumeration or the input object inside a type of arguments is registered. -/
structure Knows (s : Schema) (t : InputTy) : Prop where
  enum : ∀ name n, (InputTy.enum name n).Inside t → name ∈ s.enums.keys
  object : ∀ name n, (InputTy.object name n).Inside t → name ∈ s.inputs.keys

/-- A field that is what a registration says, with the number of the field whose arguments it
inherits. -/
structure Finished (s : Schema) (f : Field) (r : Registration) : Prop where
  registered : f.Registered r
  alone : r.spec.inherit = none → f.useArgumentsFrom = none
  inherits : ∀ owner name, r.spec.inherit = some (owner, name) →
    ∃ g, s.field? owner name = some g ∧ f.useArgumentsFrom = some g.id

/-- A schema that holds what was accepted and nothing else, and in which all that is named is
registered. -/
structure Holds (s : Schema) (query : String) (mutation : Option String)
    (done : List (SchemaStep × Option FieldId)) : Prop where
  query : s.query = query
  mutation : s.mutation = mutation
  types : s.types = (done.filterMap (·.1.type?)).map fun t => (t.1, .of s.fields t.1 t.2)
  inputs : s.inputs = done.filterMap (·.1.input?)
  enums : s.enums = done.filterMap (·.1.enum?)
  fields : List.Forall₂ s.Finished s.fields (done.filterMap registration?)
  indexed : s.Indexed
  found : ∀ r ∈ done.filterMap registration?, ∃ f, s.fieldById? r.id = some f ∧
    s.field? r.owner r.spec.name = some f ∧ s.Finished f r
  byId : ∀ id f, s.fieldById? id = some f ↔ f ∈ s.fields ∧ f.id = id
  byName : ∀ owner name f, s.field? owner name = some f ↔
    f ∈ s.fields ∧ f.owner = owner ∧ f.name = name
  ordered : ∀ owner object, s.types.find? owner = some object → List.Forall₂ s.Finished
    object.fields.values ((done.filterMap registration?).filter (·.owner == owner))
  roots : ∀ kind name, s.rootType kind = some name → name ∈ s.types.keys
  owners : ∀ f ∈ s.fields, f.owner ∈ s.types.keys
  entities : ∀ f ∈ s.fields, ∀ name n, (Ty.entity name n).Inside f.ty → name ∈ s.types.keys
  arguments : ∀ f ∈ s.fields, ∀ a ∈ f.arguments.values, s.Knows a.ty
  members : ∀ input ∈ s.inputs.values, ∀ t ∈ input.fields.values, s.Knows t
  oneOf : ∀ input ∈ s.inputs.values, input.oneOf = true →
    ∀ t ∈ input.fields.values, t.nullable = true

end Schema

namespace SchemaBuilder

variable {b : SchemaBuilder} {s : Schema} {query : String} {mutation : Option String}
  {done : List (SchemaStep × Option FieldId)}

/-- Fields that are finished are what was registered, with the numbers of their sources. -/
theorem Holds.finished (h : b.Holds query mutation done) {fields : List Field}
    (linked : List.Forall₂ (fun pending f => b.link pending = .ok f) b.fields fields) :
    List.Forall₂ (b.schema fields).Finished fields (done.filterMap registration?) := by
  refine forall₂_of_left linked h.fields fun pending hp f r hl hr => ?_
  obtain ⟨registered, none, inherit⟩ := hr
  have same : f.Registered r := by
    rw [link_with hl]
    obtain ⟨id, owner, name, p, a, link, described⟩ := registered
    refine ⟨id, owner, name, p, a, f.useArgumentsFrom, ?_⟩
    rw [described]
  rcases link_ok hl with ⟨alone, rfl⟩ | ⟨owner, name, id, source, hid, rfl⟩
  · exact ⟨same, fun _ => none, fun owner name hi => nomatch alone.symm.trans (inherit.trans hi)⟩
  · obtain ⟨g, hg, rfl⟩ := h.indexed.source_found linked hid
    refine ⟨same, fun hi => (nomatch source.symm.trans (inherit.trans hi)), fun owner' name' hi => ?_⟩
    cases source.symm.trans (inherit.trans hi)
    exact ⟨g, hg, rfl⟩

theorem knows_of_known {t : InputTy} {fields : List Field} (h : ∀ name, ¬b.Unknown t name) :
    (b.schema fields).Knows t where
  enum name _ inside := by
    by_contra unknown
    exact h name (.enum inside unknown)
  object name _ inside := by
    by_contra unknown
    exact h name (.object inside unknown)

/-- What is built from a builder that holds what was accepted. -/
theorem Holds.build (h : b.Holds query mutation done) (built : b.build = .ok s) :
    s.Holds query mutation done := by
  have whole := (build_checks b).passes s built
  obtain ⟨fields, linked, rfl⟩ := build_eq built
  have indexed := h.indexed.build linked
  have finished := h.finished linked
  have objects := h.indexed.types_eq linked
  have names := h.indexed.names_eq linked
  have origin : ∀ f ∈ fields, ∃ pending ∈ b.fields,
      f = { pending.field with useArgumentsFrom := f.useArgumentsFrom } := fun f hf => by
    obtain ⟨pending, hp, hl⟩ := exists_of_forall₂ linked hf
    exact ⟨pending, hp, link_with hl⟩
  exact {
    query := h.query
    mutation := h.mutation
    types := h.types ▸ objects
    inputs := h.inputs
    enums := h.enums
    fields := finished
    indexed := indexed
    found := fun r hr => by
      obtain ⟨f, hf, hfr⟩ := exists_of_forall₂ finished hr
      exact ⟨f, indexed.fieldById?_iff.mpr ⟨hf, hfr.registered.id⟩,
        indexed.field?_iff.mpr ⟨hf, hfr.registered.owner, hfr.registered.name⟩, hfr⟩
    byId := fun _ _ => indexed.fieldById?_iff
    byName := fun _ _ _ => indexed.field?_iff
    ordered := fun owner object ho => by
      have own : object.fields.values = fields.filter (·.owner == owner) := by
        rw [indexed.object_eq ho, ObjectType.of, Dict.values, List.map_map]
        exact List.map_id _
      rw [own]
      exact forall₂_filter finished fun f r hfr => by rw [hfr.registered.owner]
    roots := fun kind name hk => by
      rw [names]
      by_contra unknown
      cases kind with
      | query =>
        cases hk
        exact whole _ (.query unknown)
      | mutation => exact whole _ (.mutation hk unknown)
    owners := indexed.owners
    entities := fun f hf name n inside => by
      obtain ⟨pending, hp, hf⟩ := origin f hf
      rw [hf] at inside
      rw [names]
      by_contra unknown
      exact whole _ (.field hp (.entity inside unknown))
    arguments := fun f hf a ha => by
      obtain ⟨pending, hp, hf⟩ := origin f hf
      rw [hf] at ha
      exact knows_of_known fun name unknown => whole _ (.field hp (.argument ha unknown))
    members := fun input hi t ht =>
      knows_of_known fun name unknown => whole _ (.input hi ht unknown)
    oneOf := h.oneOf }

end SchemaBuilder

/-! ## Built schemas -/

/-- A schema that was built step by step holds what was registered on the way. -/
theorem Schema.Built.holds {s : Schema} (h : s.Built) : ∃ done, s.Holds s.query s.mutation done := by
  obtain ⟨b, reached, built⟩ := h
  obtain ⟨query, mutation, done, held⟩ := reached.holds
  have holds := held.build built
  exact ⟨done, { holds with query := rfl, mutation := rfl }⟩

theorem FieldSpec.nodup_argumentDefs (spec : FieldSpec) : spec.argumentDefs.keys.Nodup := by
  have own : (spec.arguments.foldl (fun (d : Dict ArgumentDef) a => d.insert a.name a) []).keys.Nodup :=
    List.foldlRecOn (motive := fun d : Dict ArgumentDef => d.keys.Nodup) _ _ List.nodup_nil
      fun d hd a _ => Dict.nodup_insert hd a.name a
  exact List.foldlRecOn (motive := fun d : Dict ArgumentDef => d.keys.Nodup) _ _ own
    fun d hd a _ => Dict.nodup_insertNew hd a.name a

theorem Schema.Built.nodup_arguments {s : Schema} (h : s.Built) {f : Field} (hf : f ∈ s.fields) :
    f.arguments.keys.Nodup := by
  obtain ⟨done, holds⟩ := h.holds
  obtain ⟨r, -, finished⟩ := exists_of_forall₂ holds.fields.flip hf
  obtain ⟨p, a, link, described⟩ := finished.registered.described
  have declared : f.arguments = r.spec.argumentDefs := by
    rw [described]
    rfl
  rw [declared]
  exact r.spec.nodup_argumentDefs

/-- From an empty builder, what steps lead to. A refused step changes neither what the others answer
nor what is built; a step is refused just if the builder that the steps before it have left gives a
reason; what is built holds what was accepted; building fails just where something that is named is
missing, and reports it. -/
theorem SchemaBuilder.run_builds (query : String) (mutation : Option String) (fresh : Nat)
    (steps : List SchemaStep) :
    let start := SchemaBuilder.new query mutation fresh
    let (answers, b) := start.run steps
    (∀ (i : Nat) e, answers[i]? = some (.error e) →
      start.run (steps.eraseIdx i) = (answers.eraseIdx i, b)) ∧
    (∀ (i : Nat) s, steps[i]? = some s → ∃ answer, answers[i]? = some answer ∧
      Checks ((start.run (steps.take i)).2.Refuses s) answer) ∧
    b.Holds query mutation (accepted steps answers) ∧
    (∀ s, b.build = .ok s → s.Holds query mutation (accepted steps answers)) ∧
    (∀ e, b.build = .error e → b.Missing e) ∧
    ((∃ s, b.build = .ok s) ↔ ∀ e, ¬b.Missing e) := by
  have held := (SchemaBuilder.Holds.new query mutation fresh).run steps
  rw [List.nil_append] at held
  have checks := SchemaBuilder.build_checks ((SchemaBuilder.new query mutation fresh).run steps).2
  refine ⟨fun i e he => SchemaBuilder.run_eraseIdx he, fun i s hs => SchemaBuilder.run_checks hs,
    held, fun s => held.build, fun e => checks.fails e, fun ⟨s, built⟩ => checks.passes s built,
    fun whole => ?_⟩
  cases built : ((SchemaBuilder.new query mutation fresh).run steps).2.build with
  | ok s => exact ⟨s, rfl⟩
  | error e => exact absurd (checks.fails e built) (whole e)

namespace Orders

def orders : FieldSpec where
  name := "orders"
  ty := .list (.entity "Order" false) true
  resolve := .member ["orders"]
  arguments := [⟨"status", .enum "Status" true, none, none⟩,
    ⟨"by", .list (.object "Filter" false) true, none, none⟩]

def recent : FieldSpec where
  name := "recent"
  ty := .list (.entity "Order" false) true
  resolve := .member ["recent"]
  inherit := some ("Query", "orders")

/-- Steps that name what comes later, and some that are refused. -/
def steps : List SchemaStep :=
  [.field "Query" orders, .type "Query" none, .field "Query" recent, .type "Query" (some "again"),
    .input ⟨"Filter", [("status", .enum "Status" false)], true⟩, .field "Query" orders,
    .enum ⟨"Status", ["open", "closed"]⟩,
    .input ⟨"Filter", [("statuses", .list (.enum "Status" false) true)], true⟩,
    .type "Order" none, .field "Query" orders, .field "Order" (.ofMember "id" (.scalar .id false))]

/-- What the steps answer, and the builder that they leave behind. -/
def outcome : List (Except SchemaError (Option FieldId)) × SchemaBuilder :=
  (SchemaBuilder.new "Query" none 0).run steps

def schema : Schema := okOf outcome.2.build (by decide +kernel)

end Orders

open Orders in
theorem run_builds_orders : outcome.1 = [.error (.unknownType "Query" (.newField "orders")), .ok none,
      .ok (some 0), .error (.duplicateType "Query"), .error (.oneOfNotNullable "Filter"),
      .ok (some 1), .ok none, .ok none, .ok none, .error (.duplicateField "Query" "orders"),
      .ok (some 2)] ∧
    outcome.2.build = .ok schema ∧ schema.Holds "Query" none (accepted steps outcome.1) ∧
    ∃ f g, schema.fieldById? 0 = some f ∧ schema.fieldById? 1 = some g ∧ f.name = "recent" ∧
      g.name = "orders" ∧ f.useArgumentsFrom = some g.id := by
  have built : outcome.2.build = .ok schema := eq_okOf _ _
  obtain ⟨-, -, -, holds, -⟩ := SchemaBuilder.run_builds "Query" none 0 steps
  have held := holds schema built
  have registered : (accepted steps outcome.1).filterMap registration? =
      [⟨0, "Query", recent⟩, ⟨1, "Query", orders⟩,
        ⟨2, "Order", .ofMember "id" (.scalar .id false)⟩] := by rfl
  obtain ⟨f, hf, -, fin⟩ := held.found ⟨0, "Query", recent⟩ (registered.symm ▸ by simp)
  obtain ⟨g, hg, named, -⟩ := held.found ⟨1, "Query", orders⟩ (registered.symm ▸ by simp)
  obtain ⟨g', hg', link⟩ := fin.inherits "Query" "orders" rfl
  cases named.symm.trans hg'
  exact ⟨by rfl, built, held, f, g, hf, hg, fin.registered.name, ((held.byName _ _ _).mp hg').2.2,
    link⟩

end FieldPlan
