import FieldPlan.Proofs.Wanted.Plannable

/-!
# Values that conform to types

* `SchemaConfig.Conforms` : a value conforms to a type through some steps: the members that the fields of
  an entity read are there and conform, and so do the items of a list; null conforms to every type;
* `SchemaConfig.Conforming` : it conforms through any number of steps;
* `SchemaConfig.Supplies` : services answer with conforming values, and constants are conforming values;
* `SchemaConfig.Conforming.value` : then fields have conforming values on conforming values;
* `SchemaConfig.Conforming.arranged` : conforming lists can be arranged by fields of their items.
-/

namespace FieldPlan

variable {config : SchemaConfig} {schema : Schema} {answers : Answers}

/-! ## Conforming values -/

/-- A value conforms to a type through `depth` steps into it. Any value conforms to a scalar type: plans do
not look into those. -/
def SchemaConfig.Conforms (config : SchemaConfig) (schema : Schema) : Nat → Ty → Json → Prop
  | 0, _, _ => True
  | depth + 1, t, v => v = .null ∨
    match t with
    | .entity name _ => ∀ f ∈ schema.fields, f.owner = name →
      ∀ source, config.source? f.owner f.name = some source → source.Readable v ∧
        ∀ path u, source = .member path → v.readPath path = some u →
          Conforms config schema depth f.ty u
    | .list element _ => ∃ items, v = .arr items ∧ ∀ u ∈ items, Conforms config schema depth element u
    | _ => True

def SchemaConfig.Conforming (config : SchemaConfig) (schema : Schema) (t : Ty) (v : Json) : Prop :=
  ∀ depth, config.Conforms schema depth t v

/-- What comes from elsewhere than the data conforms: services answer every call, with values of the types
of their fields, and constants are such values. -/
structure SchemaConfig.Supplies (config : SchemaConfig) (schema : Schema) (answers : Answers) : Prop where
  services : ∀ f ∈ schema.fields, ∀ name method args,
    config.source? f.owner f.name = some (.service name method args) → ∀ vs,
      ∃ v, answers name method vs = .ok v ∧ config.Conforming schema f.ty v
  constants : ∀ f ∈ schema.fields, ∀ v, config.source? f.owner f.name = some (.constant v) →
    config.Conforming schema f.ty v

theorem Json.readPath_null (path : List String) : Json.null.readPath path = some .null := by
  induction path with
  | nil => rfl
  | cons name path ih => exact ih

namespace SchemaConfig.Conforming

variable {t : Ty} {v : Json} {name : String} {nullable : Bool}

theorem null (t : Ty) : config.Conforming schema t .null := by
  intro depth
  cases depth with
  | zero => trivial
  | succ depth => exact .inl rfl

/-- The members that a field reads from a conforming value of its owner are there and conform. -/
theorem field (h : config.Conforming schema (.entity name nullable) v) {f : Field}
    (hf : f ∈ schema.fields) (owner : f.owner = name) {source : Resolve}
    (hs : config.source? f.owner f.name = some source) : source.Readable v ∧
      ∀ path u, source = .member path → v.readPath path = some u → config.Conforming schema f.ty u := by
  by_cases hv : v = .null
  · subst hv
    refine ⟨fun path _ => by rw [Json.readPath_null]; rfl, fun path u _ hu => ?_⟩
    cases (Json.readPath_null path).symm.trans hu
    exact null f.ty
  · have inside := fun depth => (h (depth + 1)).resolve_left hv f hf owner source hs
    exact ⟨(inside 0).1, fun path u member hu depth => (inside depth).2 path u member hu⟩

/-- A conforming list is null or has conforming items. -/
theorem items {element : Ty} (h : config.Conforming schema (.list element nullable) v) :
    v = .null ∨ ∃ items, v = .arr items ∧ ∀ u ∈ items, config.Conforming schema element u := by
  refine or_iff_not_imp_left.mpr fun hv => ?_
  obtain ⟨items, rfl, -⟩ := (h 1).resolve_left hv
  refine ⟨items, rfl, fun u hu depth => ?_⟩
  obtain ⟨items', same, all⟩ := (h (depth + 1)).resolve_left hv
  cases same
  exact all u hu

theorem arr {element : Ty} {items : List Json}
    (h : ∀ u ∈ items, config.Conforming schema element u) :
    config.Conforming schema (.list element nullable) (.arr items) := by
  intro depth
  cases depth with
  | zero => trivial
  | succ depth => exact .inr ⟨items, rfl, fun u hu => h u hu depth⟩

/-! ## Fields -/

theorem serviceArgs {source : Resolve} {service method : String} {args : List ServiceArg}
    (hs : source = .service service method args) (readable : source.Readable v) (arguments : Dict Json) :
    ∃ vs, args.mapM (·.value arguments v) = some vs := by
  subst hs
  refine mapM_some_iff.mpr fun a ha => ?_
  cases a with
  | member path =>
    have read : path ∈ (Resolve.service service method args).paths :=
      List.mem_filterMap.mpr ⟨.member path, ha, rfl⟩
    exact Option.isSome_iff_exists.mp (readable path read)
  | argument n => exact ⟨_, rfl⟩
  | constant u => exact ⟨u, rfl⟩

/-- A field has a conforming value on a conforming value of its owner. -/
theorem value (h : config.Conforming schema (.entity name nullable) v)
    (supplies : config.Supplies schema answers) {f : Field} (hf : f ∈ schema.fields)
    (owner : f.owner = name) {source : Resolve} (hs : config.source? f.owner f.name = some source)
    (plain : source.Plain) (arguments : Dict Json) :
    ∃ u, source.value answers arguments v = some u ∧ config.Conforming schema f.ty u := by
  obtain ⟨readable, members⟩ := h.field hf owner hs
  cases source with
  | member path =>
    obtain ⟨u, hu⟩ := Option.isSome_iff_exists.mp (readable path (List.mem_singleton.mpr rfl))
    exact ⟨u, hu, members path u rfl hu⟩
  | service service method args =>
    obtain ⟨vs, hvs⟩ := serviceArgs rfl readable arguments
    obtain ⟨u, hu, conforms⟩ := supplies.services f hf service method args hs vs
    refine ⟨u, ?_, conforms⟩
    show Option.bind (args.mapM _) _ = some u
    rw [hvs, Option.bind_some, hu]
    rfl
  | constant u => exact ⟨u, rfl, supplies.constants f hf u hs⟩
  | expr e => exact plain.elim

/-! ## Arrangements -/

/-- Some of the items of a conforming list. -/
theorem mapItems {element : Ty} (h : config.Conforming schema (.list element nullable) v)
    {g : List Json → List Json} (hg : ∀ items, ∀ u ∈ g items, u ∈ items) :
    ∃ u, v.mapItems g = some u ∧ config.Conforming schema (.list element nullable) u := by
  obtain rfl | ⟨items, rfl, all⟩ := h.items
  · exact ⟨.null, rfl, null _⟩
  · exact ⟨.arr (g items), rfl, arr fun u hu => all u (hg items u hu)⟩

theorem skipItems {element : Ty} (h : config.Conforming schema (.list element nullable) v)
    (skip : Option Nat) :
    ∃ u, v.skipItems skip = some u ∧ config.Conforming schema (.list element nullable) u := by
  match skip with
  | none | some 0 => exact ⟨v, rfl, h⟩
  | some (n + 1) => exact h.mapItems fun _ _ => List.mem_of_mem_drop

theorem takeItems {element : Ty} (h : config.Conforming schema (.list element nullable) v)
    (take : Option Nat) :
    ∃ u, v.takeItems take = some u ∧ config.Conforming schema (.list element nullable) u := by
  match take with
  | none => exact ⟨v, rfl, h⟩
  | some n => exact h.mapItems fun _ _ => List.mem_of_mem_take

/-- A conforming list can be sorted by keys that its items have. -/
theorem sortBy {element : Ty} (h : config.Conforming schema (.list element nullable) v)
    {keys : List ItemKey}
    (hkeys : ∀ u, config.Conforming schema element u → ∀ key ∈ keys, ∃ k, key.value u = some k) :
    ∃ u, v.sortBy keys = some u ∧ config.Conforming schema (.list element nullable) u := by
  obtain rfl | ⟨items, rfl, all⟩ := h.items
  · exact ⟨.null, rfl, null _⟩
  · obtain ⟨keyed, hkeyed⟩ : ∃ keyed, items.mapM (fun item => do
        let values ← keys.mapM fun key => key.value item
        pure (values, item)) = some keyed := by
      refine mapM_some_iff.mpr fun u hu => ?_
      obtain ⟨values, hvalues⟩ := mapM_some_iff.mpr (hkeys u (all u hu))
      exact ⟨(values, u), by rw [hvalues]; rfl⟩
    refine ⟨.arr (sortKeyed (keys.map (·.direction)) keyed), ?_, arr fun u hu => ?_⟩
    · rw [Json.sortBy, hkeyed]
      rfl
    · obtain ⟨row, hrow, rfl⟩ := List.mem_map.mp hu
      obtain ⟨item, hitem, hvalues⟩ := mem_of_mapM hkeyed (List.mem_mergeSort.mp hrow)
      obtain ⟨values, -, hrow⟩ := Option.bind_eq_some_iff.mp hvalues
      cases hrow
      exact all item hitem

/-- A conforming list of an entity can be sorted by fields of the entity that need no service. -/
theorem sortByFields (built : config.build = .ok schema) (supplies : config.Supplies schema answers)
    {inner : Bool} (h : config.Conforming schema (.list (.entity name inner) nullable) v)
    {order : List (String × Direction)}
    (known : ∀ key ∈ order, ∃ source, config.source? name key.1 = some source) :
    ∃ u, v.sortByFields config answers (some name) order = some u ∧
      config.Conforming schema (.list (.entity name inner) nullable) u := by
  unfold Json.sortByFields
  split
  · exact ⟨v, rfl, h⟩
  · obtain ⟨keys, hkeys⟩ : ∃ keys, order.mapM (config.itemKey answers name) = some keys := by
      refine mapM_some_iff.mpr fun key hkey => ?_
      obtain ⟨source, hs⟩ := known key hkey
      exact ⟨_, by rw [SchemaConfig.itemKey, hs]; rfl⟩
    have each : ∀ u, config.Conforming schema (.entity name inner) u →
        ∀ key ∈ keys, ∃ k, key.value u = some k := by
      intro u hu key hkey
      obtain ⟨named, hnamed, made⟩ := mem_of_mapM hkeys hkey
      obtain ⟨source, hs⟩ := known named hnamed
      rw [SchemaConfig.itemKey, hs] at made
      cases made
      obtain ⟨f, fc, -, hf, owner, -, traits⟩ := exists_field built hs
      obtain ⟨k, hk, -⟩ := hu.value supplies hf owner traits.source? traits.plain []
      exact ⟨k, hk⟩
    obtain ⟨u, hu, conforms⟩ := h.sortBy each
    refine ⟨u, ?_, conforms⟩
    show Option.bind (order.mapM _) _ = some u
    rw [hkeys]
    exact hu

/-- A conforming list of an entity can be arranged by fields of the entity. -/
theorem arranged (built : config.build = .ok schema) (supplies : config.Supplies schema answers)
    {inner : Bool} (h : config.Conforming schema (.list (.entity name inner) nullable) v)
    {a : Arrangement} (known : ∀ key ∈ a.order, ∃ source, config.source? name key.1 = some source) :
    ∃ u, a.value config answers (some name) v = some u ∧
      config.Conforming schema (.list (.entity name inner) nullable) u := by
  obtain ⟨sorted, hsorted, ordered⟩ := h.sortByFields built supplies known
  obtain ⟨rest, hrest, skipped⟩ := ordered.skipItems a.skip
  obtain ⟨u, hu, taken⟩ := skipped.takeItems a.take
  refine ⟨u, ?_, taken⟩
  rw [Arrangement.value, hsorted, Option.bind_eq_bind, Option.bind_some, hrest]
  exact hu

end SchemaConfig.Conforming

end FieldPlan
