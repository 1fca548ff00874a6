import FieldPlan.Proofs.Schema.Indexed

/-!
# Schemas from descriptions

* `SchemaConfig.field?` : the description of a field;
* `Described` : a field that is what its description says;
* `SchemaConfig.build_ok` : the fields, the directives and the numbers of parameters of a schema that
  was built from a description;
* `SchemaConfig.build_complete` : it has every field that is described.
-/

namespace FieldPlan

def SchemaConfig.field? (c : SchemaConfig) (owner name : String) : Option FieldConfig :=
  (c.types.find? owner).bind fun t => t.fields.find? name

/-- The parameter that stands for the record of arguments. -/
def Param.arguments : Param := ⟨1, "args", Ty.json.nonNull⟩

/-- A field that is what its description says, over a parameter for its owner's value. -/
inductive Described (config : SchemaConfig) (fresh : Nat) : Field → Prop
  | of {owner name : String} {fc : FieldConfig} {spec : FieldSpec} {p : Param} (id : FieldId)
    (link : Option FieldId) (found : config.field? owner name = some fc)
    (specified : config.fieldSpec owner name fc = .ok spec) (ty : p.ty = .entity owner false)
    (above : 1 < p.id) (below : p.id < fresh) :
    Described config fresh
      { SchemaBuilder.fieldOf owner spec id p .arguments with useArgumentsFrom := link }

theorem Described.mono {config : SchemaConfig} {m n : Nat} {f : Field} (h : Described config m f)
    (hmn : m ≤ n) : Described config n f := by
  cases h with
  | of id link found specified ty above below =>
    exact .of id link found specified ty above (Nat.lt_of_lt_of_le below hmn)

/-- The parts of a builder that registers what a description says. -/
structure SchemaBuilder.Follows (b : SchemaBuilder) (config : SchemaConfig) : Prop where
  fields : ∀ pending ∈ b.fields, Described config b.fresh pending.field
  owners : ∀ owner p, b.ownerParams.find? owner = some p →
    p.ty = .entity owner false ∧ 1 < p.id ∧ p.id < b.fresh
  args : b.argsParam = .arguments
  directives : b.directives = [("include", .includeIf), ("skip", .skipIf)]
  fresh : 1 < b.fresh

namespace SchemaBuilder

variable {config : SchemaConfig} {b b' : SchemaBuilder}

theorem Follows.new (query : String) (mutation : Option String) :
    (SchemaBuilder.new query mutation 1).Follows config where
  fields := by simp [SchemaBuilder.new]
  owners := by simp [SchemaBuilder.new]
  args := rfl
  directives := rfl
  fresh := Nat.lt_succ_self 1

theorem Follows.addEnum (h : b.Follows config) {e : Enumeration}
    (he : SchemaBuilder.addEnum e b = (.ok (), b')) : b'.Follows config := by
  rw [addEnum_run] at he
  split at he
  · cases he
  · cases he
    exact ⟨h.fields, h.owners, h.args, h.directives, h.fresh⟩

theorem Follows.addInput (h : b.Follows config) {i : InputObject}
    (hi : SchemaBuilder.addInput i b = (.ok (), b')) : b'.Follows config := by
  rw [addInput_run] at hi
  split at hi
  · cases hi
  · split at hi
    · cases hi
    · cases hi
      exact ⟨h.fields, h.owners, h.args, h.directives, h.fresh⟩

theorem addType_ok {name : String} {description : Option String}
    (h : SchemaBuilder.addType name description b = (.ok (), b')) :
    name ∉ b.types.keys ∧ b' = { b with types := b.types ++ [(name, description)] } := by
  rw [addType_run] at h
  split at h
  · cases h
  · rename_i new
    cases h
    exact ⟨new, rfl⟩

theorem Follows.addType (h : b.Follows config) {name : String} {description : Option String}
    (ht : SchemaBuilder.addType name description b = (.ok (), b')) : b'.Follows config := by
  obtain ⟨-, rfl⟩ := addType_ok ht
  exact ⟨h.fields, h.owners, h.args, h.directives, h.fresh⟩

theorem Follows.ownerParam (h : b.Follows config) {owner : String} {p : Param}
    (hp : SchemaBuilder.ownerParam owner b = (.ok p, b')) :
    b'.Follows config ∧ p.ty = .entity owner false ∧ 1 < p.id ∧ p.id < b'.fresh := by
  rcases ownerParam_run b owner with ⟨q, ho, run⟩ | ⟨-, q, id, ty, run⟩
  · cases hp.symm.trans run
    exact ⟨h, h.owners owner p ho⟩
  · cases hp.symm.trans run
    have above := h.fresh
    refine ⟨⟨fun pending hp => (h.fields pending hp).mono (Nat.le_succ _), ?_, h.args, h.directives,
      Nat.lt_succ_of_lt above⟩, ty, id ▸ above, id ▸ Nat.lt_succ_self _⟩
    intro owner' r hr
    rw [Dict.find?_insert] at hr
    split at hr
    · rename_i he
      cases hr
      exact ⟨he ▸ ty, id ▸ above, id ▸ Nat.lt_succ_self _⟩
    · obtain ⟨ht, ha, hb⟩ := h.owners owner' r hr
      exact ⟨ht, ha, Nat.lt_succ_of_lt hb⟩

theorem Follows.addField (h : b.Follows config) {owner name : String} {fc : FieldConfig}
    {spec : FieldSpec} {id : FieldId} (found : config.field? owner name = some fc)
    (specified : config.fieldSpec owner name fc = .ok spec)
    (ha : SchemaBuilder.addField owner spec b = (.ok id, b')) : b'.Follows config := by
  obtain ⟨-, -, -, p, drawn, hp, rfl⟩ := addField_ok ha
  obtain ⟨h₁, hty, hlo, hhi⟩ := h.ownerParam hp
  refine ⟨fun pending hm => ?_, h₁.owners, h₁.args, h₁.directives, h₁.fresh⟩
  rcases List.mem_append.mp hm with hm | hm
  · exact h₁.fields pending hm
  · obtain rfl := List.mem_singleton.mp hm
    rw [h₁.args]
    exact .of _ none found specified hty hlo hhi

theorem fieldId?_adds {owner owner' name : String} {spec : FieldSpec} {id : FieldId}
    (ha : SchemaBuilder.addField owner spec b = (.ok id, b')) :
    b'.fieldId? owner' name = if (owner', name) = (owner, spec.name) then some id
      else b.fieldId? owner' name := by
  obtain ⟨-, -, rfl, p, drawn, hp, rfl⟩ := addField_ok ha
  obtain ⟨_, params, fresh, he⟩ := ownerParam_eq b owner
  cases hp.symm.trans he
  unfold fieldId? push
  rw [List.lookup_cons]
  split <;> simp_all

theorem addField_known {owner owner' name : String} {spec : FieldSpec} {id : FieldId}
    (ha : SchemaBuilder.addField owner spec b = (.ok id, b'))
    (h : b.fieldId? owner' name ≠ none ∨ owner' = owner ∧ name = spec.name) :
    b'.fieldId? owner' name ≠ none := by
  rw [fieldId?_adds ha]
  split
  · simp
  · rename_i other
    exact h.resolve_right fun same => other (Prod.ext same.1 same.2)

end SchemaBuilder

namespace SchemaConfig

variable {c : SchemaConfig} {b b' : SchemaBuilder}

theorem fieldSpec_name {owner name : String} {fc : FieldConfig} {spec : FieldSpec}
    (h : c.fieldSpec owner name fc = .ok spec) : spec.name = name := by
  cases fc with
  | short ty =>
    obtain ⟨t, -, h⟩ := bind_ok.mp h
    cases h
    rfl
  | full d =>
    obtain ⟨t, -, h⟩ := bind_ok.mp h
    obtain ⟨resolve, -, h⟩ := bind_ok.mp h
    obtain ⟨arguments, -, h⟩ := bind_ok.mp h
    obtain ⟨source, -, h⟩ := bind_ok.mp h
    cases h
    rfl

theorem follows_addEnums (h : b.Follows c) (he : c.addEnums b = (.ok (), b')) : b'.Follows c :=
  exec_forM_ok (fun _ b => b.Follows c) he h fun _ _ _ _ _ _ hb hstep => hb.addEnum hstep

theorem follows_addInputs (h : b.Follows c) (hi : c.addInputs b = (.ok (), b')) : b'.Follows c :=
  exec_forM_ok (fun _ b => b.Follows c) hi h fun _ _ _ _ _ _ hb hstep => by
    obtain ⟨fields, _, hfields, hstep⟩ := exec_bind_iff.mp hstep
    obtain ⟨-, rfl⟩ := exec_lift_iff.mp hfields
    exact hb.addInput hstep

theorem follows_addTypes (h : b.Follows c) (ht : c.addTypes b = (.ok (), b')) : b'.Follows c :=
  exec_forM_ok (fun _ b => b.Follows c) ht h fun _ _ _ _ _ _ hb hstep => hb.addType hstep

/-- Entities have distinct names. -/
theorem addTypes_nodup (ht : c.addTypes b = (.ok (), b')) : c.types.keys.Nodup := by
  have h := exec_forM_ok (fun done b' => (Dict.keys done).Nodup ∧ ∀ name ∈ Dict.keys done,
    name ∈ b'.types.keys) ht ⟨List.nodup_nil, by simp [Dict.keys]⟩ ?_
  · exact h.1
  · rintro done t rest b b' - ⟨hd, hk⟩ hstep
    obtain ⟨hn, rfl⟩ := SchemaBuilder.addType_ok hstep
    have split : Dict.keys (done ++ [t]) = Dict.keys done ++ [t.1] := Dict.keys_append done [t]
    rw [split]
    refine ⟨?_, fun name hname => ?_⟩
    · refine List.nodup_append.mpr ⟨hd, by simp, fun a ha x hx => ?_⟩
      obtain rfl := List.mem_singleton.mp hx
      rintro rfl
      exact hn (hk _ ha)
    · rw [Dict.keys_append]
      exact List.mem_append.mpr ((List.mem_append.mp hname).imp_left (hk name))

/-- The fields of an entity have distinct names, and the builder registers what is said of them. -/
theorem addFields_ok (h : b.Follows c) {t : String × TypeConfig}
    (found : c.types.find? t.1 = some t.2) (hf : c.addFields t b = (.ok (), b')) : b'.Follows c ∧
      (∀ owner name, b.fieldId? owner name ≠ none → b'.fieldId? owner name ≠ none) ∧
        ∀ name ∈ Dict.keys t.2.fields, b'.fieldId? t.1 name ≠ none := by
  refine exec_forM_ok (fun done b' => b'.Follows c ∧
    (∀ owner name, b.fieldId? owner name ≠ none → b'.fieldId? owner name ≠ none) ∧
      ∀ name ∈ Dict.keys done, b'.fieldId? t.1 name ≠ none) hf
    ⟨h, fun _ _ h => h, by simp [Dict.keys]⟩ ?_
  rintro done f rest b b' hsplit ⟨hb, hkept, hk⟩ hstep
  obtain ⟨spec, _, lifted, hstep⟩ := exec_bind_iff.mp hstep
  obtain ⟨hspec, rfl⟩ := exec_lift_iff.mp lifted
  obtain ⟨id, _, hadd, ⟨⟩⟩ := exec_bind_iff.mp hstep
  have hname := fieldSpec_name hspec
  have hnew : f.1 ∉ Dict.keys done := by
    intro hm
    exact hk f.1 hm (hname ▸ (SchemaBuilder.addField_ok hadd).2.1)
  have hfc : c.field? t.1 f.1 = some f.2 := by
    simp only [field?, found, Option.bind_some, hsplit]
    exact Dict.find?_append_cons hnew f.2 rest
  refine ⟨hb.addField hfc hspec hadd, fun owner name hm => ?_, fun name hm => ?_⟩
  · exact SchemaBuilder.addField_known hadd (.inl (hkept owner name hm))
  · refine SchemaBuilder.addField_known hadd ?_
    rw [hname]
    simp only [Dict.keys, List.map_append, List.map_cons, List.map_nil, List.mem_append,
      List.mem_singleton] at hm
    exact hm.imp (hk name) fun h => ⟨rfl, h⟩

/-- The builder of a schema registers all that is said of fields and nothing else. -/
theorem build_follows {schema : Schema} (h : c.build = .ok schema) :
    ∃ b : SchemaBuilder, b.Indexed ∧ b.build = .ok schema ∧ b.Follows c ∧
      ∀ owner name fc, c.field? owner name = some fc → b.fieldId? owner name ≠ none := by
  obtain ⟨b, registered, h⟩ := build_iff.mp h
  have indexed := (register_reached registered (.new _ _ _)).indexed
  obtain ⟨_, b₁, h₁, registered⟩ := exec_bind_iff.mp registered
  obtain ⟨_, b₂, h₂, registered⟩ := exec_bind_iff.mp registered
  obtain ⟨_, b₃, h₃, h₄⟩ := exec_bind_iff.mp registered
  have start : (SchemaBuilder.new c.query c.mutation 1).Follows c := .new c.query c.mutation
  have typed : b₃.Follows c := follows_addTypes (follows_addInputs (follows_addEnums start h₁) h₂) h₃
  have built := exec_forM_ok (fun done b => b.Follows c ∧ ∀ t ∈ done, ∀ name ∈ Dict.keys t.2.fields,
    b.fieldId? t.1 name ≠ none) h₄ ⟨typed, by simp⟩ ?_
  · refine ⟨b, indexed, h, built.1, fun owner name fc hfc => ?_⟩
    obtain ⟨t, ht, hname⟩ := Option.bind_eq_some_iff.mp hfc
    exact built.2 (owner, t) (Dict.mem_of_find? ht) name
      (List.mem_map_of_mem (Dict.mem_of_find? hname))
  · rintro done t rest b b' hsplit ⟨hb, hk⟩ hstep
    obtain ⟨hb', hkept, hnew⟩ := addFields_ok hb (Dict.find?_of_mem (addTypes_nodup h₃)
      (by rw [hsplit]; simp)) hstep
    refine ⟨hb', List.forall_mem_append.mpr ⟨fun u hu name hname => ?_,
      List.forall_mem_singleton.mpr hnew⟩⟩
    exact hkept _ _ (hk u hu name hname)

/-- What a description builds. -/
theorem build_ok {schema : Schema} (h : c.build = .ok schema) :
    (∀ f ∈ schema.fields, Described c schema.fresh f) ∧
      schema.directives = [("include", .includeIf), ("skip", .skipIf)] ∧ 1 < schema.fresh := by
  obtain ⟨b, -, h, built, -⟩ := build_follows h
  obtain ⟨fields, linked, rfl⟩ := SchemaBuilder.build_eq h
  refine ⟨fun f hf => ?_, built.directives, built.fresh⟩
  obtain ⟨pending, hp, hl⟩ := exists_of_forall₂ linked hf
  have d := built.fields pending hp
  rw [SchemaBuilder.link_with hl]
  revert d
  generalize pending.field = g
  rintro ⟨id, _, found, specified, ty, above, below⟩
  exact .of id f.useArgumentsFrom found specified ty above below

/-- Every described field is a field of the schema. -/
theorem build_complete {schema : Schema} (h : c.build = .ok schema) {owner name : String}
    {fc : FieldConfig} (hfc : c.field? owner name = some fc) :
    ∃ f, schema.field? owner name = some f := by
  obtain ⟨b, indexed, h, -, known⟩ := build_follows h
  obtain ⟨fields, linked, rfl⟩ := SchemaBuilder.build_eq h
  obtain ⟨id, hid⟩ := Option.ne_none_iff_exists'.mp (known owner name fc hfc)
  obtain ⟨f, hf, -⟩ := indexed.source_found linked hid
  exact ⟨f, hf⟩

end SchemaConfig

end FieldPlan
