import FieldPlan.Proofs.Success
import FieldPlan.Schema.Config

/-!
# Schemas step by step

* `SchemaStep`, `SchemaBuilder.step` : what can be registered, one after the other;
* `SchemaBuilder.Refuses` : why steps are refused; `SchemaBuilder.Adds` : what accepted steps add;
* `SchemaBuilder.step_cases` : what a step does; a refused one leaves the builder as it was;
* `SchemaBuilder.Reached`, `Schema.Built` : the builders that steps lead to, and the schemas that
  they build;
* `SchemaConfig.built` : what a description builds is built step by step.
-/

namespace FieldPlan

/-- What can be registered. -/
inductive SchemaStep where
  | type (name : String) (description : Option String)
  | field (owner : String) (spec : FieldSpec)
  | input (input : InputObject)
  | enum (enumeration : Enumeration)
  | directive (directive : Directive)
  | ownerParam (owner : String)

namespace SchemaStep

def type? : SchemaStep → Option (String × Option String)
  | .type name description => some (name, description)
  | _ => none

def input? : SchemaStep → Option (String × InputObject)
  | .input object => some (object.name, object)
  | _ => none

def enum? : SchemaStep → Option (String × Enumeration)
  | .enum enumeration => some (enumeration.name, enumeration)
  | _ => none

end SchemaStep

/-- A field that was registered, and its number. -/
structure Registration where
  id : FieldId
  owner : String
  spec : FieldSpec

/-- The field that a step registered. -/
def registration? : SchemaStep × Option FieldId → Option Registration
  | (.field owner spec, some id) => some ⟨id, owner, spec⟩
  | _ => none

namespace SchemaBuilder

variable {b b' : SchemaBuilder}

/-! ## One step -/

/-- Registers a part of a schema; the answer to a field is its number. -/
def step : SchemaStep → Registering (Option FieldId)
  | .type name description => do
    addType name description
    pure none
  | .field owner spec => do
    let id ← addField owner spec
    pure (some id)
  | .input input => do
    addInput input
    pure none
  | .enum enumeration => do
    addEnum enumeration
    pure none
  | .directive directive => do
    addDirective directive
    pure none
  | .ownerParam owner => do
    let _ ← ownerParam owner
    pure none

/-- Why a step is refused. -/
inductive Refuses (b : SchemaBuilder) : SchemaStep → SchemaError → Prop
  | type {name : String} {description : Option String} (h : name ∈ b.types.keys) :
      Refuses b (.type name description) (.duplicateType name)
  | owner {owner : String} {spec : FieldSpec} (h : owner ∉ b.types.keys) :
      Refuses b (.field owner spec) (.unknownType owner (.newField spec.name))
  | field {owner : String} {spec : FieldSpec} (known : owner ∈ b.types.keys)
      (h : b.fieldId? owner spec.name ≠ none) :
      Refuses b (.field owner spec) (.duplicateField owner spec.name)
  | oneOf {input : InputObject} {t : InputTy} (one : input.oneOf = true)
      (ht : t ∈ input.fields.values) (h : t.nullable = false) :
      Refuses b (.input input) (.oneOfNotNullable input.name)
  | input {input : InputObject}
      (fine : input.oneOf = true → ∀ t ∈ input.fields.values, t.nullable = true)
      (h : input.name ∈ b.inputs.keys) : Refuses b (.input input) (.duplicateType input.name)
  | enum {e : Enumeration} (h : e.name ∈ b.enums.keys) :
      Refuses b (.enum e) (.duplicateType e.name)

/-- What a step that is accepted adds, to one of the parts of a builder or to none. -/
structure Adds (b : SchemaBuilder) (s : SchemaStep) (id : Option FieldId) (b' : SchemaBuilder) :
    Prop where
  query : b'.query = b.query
  mutation : b'.mutation = b.mutation
  types : b'.types = b.types ++ s.type?.toList
  inputs : b'.inputs = b.inputs ++ s.input?.toList
  enums : b'.enums = b.enums ++ s.enum?.toList
  fields : registration? (s, id) = none ∧ b'.fields = b.fields ∧ b'.index = b.index ∨
    ∃ owner spec p a, registration? (s, id) = some ⟨b.fields.length, owner, spec⟩ ∧
      b'.fields = b.fields ++ [⟨fieldOf owner spec b.fields.length p a, spec.inherit⟩] ∧
        b'.index = ((owner, spec.name), b.fields.length) :: b.index

/-- A step that has no reason to be refused and adds nothing. -/
theorem Adds.nothing : b.Adds (.ownerParam "") none b :=
  ⟨rfl, rfl, (List.append_nil _).symm, (List.append_nil _).symm, (List.append_nil _).symm,
    .inl ⟨rfl, rfl, rfl⟩⟩

/-! ## What steps do -/

theorem addType_run (b : SchemaBuilder) (name : String) (description : Option String) :
    addType name description b =
      if name ∈ b.types.keys then (.error (.duplicateType name), b)
      else (.ok (), { b with types := b.types ++ [(name, description)] }) := by
  show (if b.types.contains name then (throw _ : Registering Unit) else set _) b = _
  simp only [Dict.contains_iff]
  split
  · rfl
  · rename_i new
    rw [← Dict.insert_of_not_mem new]
    rfl

theorem addEnum_run (b : SchemaBuilder) (e : Enumeration) :
    addEnum e b =
      if e.name ∈ b.enums.keys then (.error (.duplicateType e.name), b)
      else (.ok (), { b with enums := b.enums ++ [(e.name, e)] }) := by
  show (if b.enums.contains e.name then (throw _ : Registering Unit) else set _) b = _
  simp only [Dict.contains_iff]
  split
  · rfl
  · rename_i new
    rw [← Dict.insert_of_not_mem new]
    rfl

theorem addInput_run (b : SchemaBuilder) (i : InputObject) :
    addInput i b =
      if i.oneOf = true ∧ ∃ t ∈ i.fields.values, t.nullable = false then
        (.error (.oneOfNotNullable i.name), b)
      else if i.name ∈ b.inputs.keys then (.error (.duplicateType i.name), b)
      else (.ok (), { b with inputs := b.inputs ++ [(i.name, i)] }) := by
  have nonNull : (i.oneOf && i.fields.any fun f => !f.2.nullable) = true ↔
      i.oneOf = true ∧ ∃ t ∈ i.fields.values, t.nullable = false := by
    rw [Bool.and_eq_true, List.any_eq_true]
    refine and_congr_right fun _ => ⟨fun ⟨f, hf, h⟩ => ?_, fun ⟨t, ht, h⟩ => ?_⟩
    · exact ⟨f.2, List.mem_map_of_mem hf, Bool.not_eq_true' _ ▸ h⟩
    · obtain ⟨f, hf, rfl⟩ := List.mem_map.mp ht
      exact ⟨f, hf, Bool.not_eq_true' _ ▸ h⟩
  show (if i.oneOf && i.fields.any (fun f => !f.2.nullable) then (throw _ : Registering Unit)
    else if b.inputs.contains i.name then throw _ else set _) b = _
  simp only [nonNull, Dict.contains_iff]
  split
  · rfl
  · split
    · rfl
    · rename_i new
      rw [← Dict.insert_of_not_mem new]
      rfl

/-- Drawing the parameter of an owner gives the one that it has or a new one. -/
theorem ownerParam_run (b : SchemaBuilder) (owner : String) :
    (∃ p, b.ownerParams.find? owner = some p ∧ ownerParam owner b = (.ok p, b)) ∨
      b.ownerParams.find? owner = none ∧
        ∃ p : Param, p.id = b.fresh ∧ p.ty = .entity owner false ∧ ownerParam owner b =
          (.ok p, { b with ownerParams := b.ownerParams.insert owner p, fresh := b.fresh + 1 }) := by
  unfold ownerParam
  rw [exec_bind_ok (show (get : Registering SchemaBuilder) b = (.ok b, b) from rfl)]
  cases b.ownerParams.find? owner with
  | some p => exact .inl ⟨p, rfl, rfl⟩
  | none => exact .inr ⟨rfl, _, rfl, rfl, rfl⟩

theorem ownerParam_eq (b : SchemaBuilder) (owner : String) : ∃ p params fresh,
    ownerParam owner b = (.ok p, { b with ownerParams := params, fresh := fresh }) := by
  rcases ownerParam_run b owner with ⟨p, -, h⟩ | ⟨-, p, -, -, h⟩
  · exact ⟨p, b.ownerParams, b.fresh, h⟩
  · exact ⟨p, _, _, h⟩

/-- Registering a field draws the parameter of its owner after its checks, and only then. -/
theorem addField_run (b : SchemaBuilder) (owner : String) (spec : FieldSpec) :
    addField owner spec b =
      if owner ∉ b.types.keys then (.error (.unknownType owner (.newField spec.name)), b)
      else if b.fieldId? owner spec.name ≠ none then (.error (.duplicateField owner spec.name), b)
      else (do
        let p ← ownerParam owner
        modifyGet fun b => (b.fields.length, b.push owner spec p) : Registering FieldId) b := by
  show (if !b.types.contains owner then (throw _ : Registering FieldId)
    else if (b.fieldId? owner spec.name).isSome then throw _ else _) b = _
  simp only [Bool.not_eq_true', ← Bool.not_eq_true, Dict.contains_iff, ← Option.isSome_iff_ne_none]
  split
  · rfl
  · split <;> rfl

/-- What registering a field leaves behind. -/
theorem addField_ok {owner : String} {spec : FieldSpec} {id : FieldId}
    (h : addField owner spec b = (.ok id, b')) :
    owner ∈ b.types.keys ∧ b.fieldId? owner spec.name = none ∧ id = b.fields.length ∧
      ∃ p drawn, ownerParam owner b = (.ok p, drawn) ∧ b' = drawn.push owner spec p := by
  rw [addField_run] at h
  split at h
  · cases h
  · rename_i known
    split at h
    · cases h
    · rename_i new
      obtain ⟨p, drawn, hp, ⟨⟩⟩ := exec_bind_iff.mp h
      obtain ⟨_, params, fresh, he⟩ := ownerParam_eq b owner
      cases hp.symm.trans he
      exact ⟨not_not.mp known, not_not.mp new, rfl, p, _, hp, rfl⟩

theorem addField_adds {owner : String} {spec : FieldSpec} {id : FieldId}
    (h : addField owner spec b = (.ok id, b')) : b.Adds (.field owner spec) (some id) b' := by
  obtain ⟨-, -, rfl, p, drawn, hp, rfl⟩ := addField_ok h
  obtain ⟨_, params, fresh, he⟩ := ownerParam_eq b owner
  cases hp.symm.trans he
  exact { Adds.nothing (b := b) with fields := .inr ⟨owner, spec, p, _, rfl, rfl, rfl⟩ }

/-- A step is refused for a reason and then leaves the builder as it was, or there is no reason to
refuse it and it adds what it registers. -/
theorem step_cases (b : SchemaBuilder) (s : SchemaStep) :
    (∃ e, step s b = (.error e, b) ∧ b.Refuses s e) ∨
      ∃ id b', step s b = (.ok id, b') ∧ b.Adds s id b' ∧ ∀ e, ¬b.Refuses s e := by
  cases s with
  | type name description =>
    have run := addType_run b name description
    split at run <;> rename_i known
    · exact .inl ⟨_, by rw [step, exec_bind, run], .type known⟩
    · refine .inr ⟨none, _, exec_bind_ok run, { Adds.nothing with types := rfl }, fun _ h => ?_⟩
      cases h with
      | type h => exact known h
  | enum e =>
    have run := addEnum_run b e
    split at run <;> rename_i known
    · exact .inl ⟨_, by rw [step, exec_bind, run], .enum known⟩
    · refine .inr ⟨none, _, exec_bind_ok run, { Adds.nothing with enums := rfl }, fun _ h => ?_⟩
      cases h with
      | enum h => exact known h
  | input i =>
    have run := addInput_run b i
    split at run <;> rename_i nonNull
    · obtain ⟨one, t, ht, h⟩ := nonNull
      exact .inl ⟨_, by rw [step, exec_bind, run], .oneOf one ht h⟩
    · have fine : i.oneOf = true → ∀ t ∈ i.fields.values, t.nullable = true := by simpa using nonNull
      split at run <;> rename_i known
      · exact .inl ⟨_, by rw [step, exec_bind, run], .input fine known⟩
      · refine .inr ⟨none, _, exec_bind_ok run, { Adds.nothing with inputs := rfl }, fun _ h => ?_⟩
        cases h with
        | oneOf one ht h => exact nonNull ⟨one, _, ht, h⟩
        | input _ h => exact known h
  | field owner spec =>
    have run := addField_run b owner spec
    split at run <;> rename_i unknown
    · exact .inl ⟨_, by rw [step, exec_bind, run], .owner unknown⟩
    · split at run <;> rename_i taken
      · exact .inl ⟨_, by rw [step, exec_bind, run], .field (not_not.mp unknown) taken⟩
      · obtain ⟨p, params, fresh, he⟩ := ownerParam_eq b owner
        rw [exec_bind_ok he] at run
        refine .inr ⟨_, _, exec_bind_ok run, addField_adds run, fun _ h => ?_⟩
        cases h with
        | owner h => exact unknown h
        | field _ h => exact taken h
  | directive d => exact .inr ⟨none, _, rfl, { Adds.nothing (b := b) with }, nofun⟩
  | ownerParam owner =>
    obtain ⟨p, params, fresh, he⟩ := ownerParam_eq b owner
    exact .inr ⟨none, _, exec_bind_ok he, { Adds.nothing (b := b) with }, nofun⟩

theorem step_refused {s : SchemaStep} {e : SchemaError} (h : step s b = (.error e, b')) : b' = b := by
  rcases step_cases b s with ⟨_, he, -⟩ | ⟨_, _, hs, -⟩
  · cases h.symm.trans he
    rfl
  · cases h.symm.trans hs

theorem step_ok {s : SchemaStep} {id : Option FieldId} (h : step s b = (.ok id, b')) :
    b.Adds s id b' ∧ ∀ e, ¬b.Refuses s e := by
  rcases step_cases b s with ⟨_, he, -⟩ | ⟨_, _, hs, adds⟩
  · cases h.symm.trans he
  · cases h.symm.trans hs
    exact adds

/-! ## Builders that steps lead to -/

/-- A builder that steps lead to, accepted or not. -/
inductive Reached : SchemaBuilder → Prop
  | new (query : String) (mutation : Option String) (fresh : Nat) :
      Reached (.new query mutation fresh)
  | step {b b' : SchemaBuilder} {s : SchemaStep} {answer : Except SchemaError (Option FieldId)}
      (h : Reached b) (hs : step s b = (answer, b')) : Reached b'

end SchemaBuilder

def Schema.Built (s : Schema) : Prop := ∃ b : SchemaBuilder, b.Reached ∧ b.build = .ok s

/-! ## Descriptions -/

namespace SchemaConfig

variable {c : SchemaConfig} {b b' : SchemaBuilder}

theorem build_iff {s : Schema} : c.build = .ok s ↔
    ∃ b, c.register (.new c.query c.mutation 1) = (.ok (), b) ∧ b.build = .ok s := by
  unfold build ExceptT.run
  generalize c.register (.new c.query c.mutation 1) = r
  rcases r with ⟨e | ⟨⟩, b⟩
  · exact ⟨nofun, nofun⟩
  · exact ⟨fun h => ⟨b, rfl, h⟩, by rintro ⟨_, ⟨⟩, h⟩; exact h⟩

theorem addFields_reached (h : b.Reached) {t : String × TypeConfig}
    (hf : c.addFields t b = (.ok (), b')) : b'.Reached :=
  exec_forM_ok (fun _ b => b.Reached) hf h fun _ f _ b b' _ hb hstep => by
    obtain ⟨spec, b₁, hspec, hstep⟩ := exec_bind_iff.mp hstep
    obtain ⟨-, rfl⟩ := exec_lift_iff.mp hspec
    obtain ⟨id, b₂, hadd, ⟨⟩⟩ := exec_bind_iff.mp hstep
    exact hb.step (s := .field t.1 spec) (exec_bind_ok hadd)

theorem register_reached (h : c.register b = (.ok (), b')) (hb : b.Reached) : b'.Reached := by
  obtain ⟨_, b₁, h₁, h⟩ := exec_bind_iff.mp h
  obtain ⟨_, b₂, h₂, h⟩ := exec_bind_iff.mp h
  obtain ⟨_, b₃, h₃, h₄⟩ := exec_bind_iff.mp h
  have enums : b₁.Reached := exec_forM_ok (fun _ b => b.Reached) h₁ hb
    fun _ e _ _ _ _ hb hstep => hb.step (s := .enum ⟨e.1, e.2⟩) (exec_bind_ok hstep)
  have inputs : b₂.Reached := exec_forM_ok (fun _ b => b.Reached) h₂ enums
    fun _ i _ _ _ _ hb hstep => by
      obtain ⟨fields, _, hfields, hstep⟩ := exec_bind_iff.mp hstep
      obtain ⟨-, rfl⟩ := exec_lift_iff.mp hfields
      exact hb.step (s := .input ⟨i.1, fields, i.2.oneOf⟩) (exec_bind_ok hstep)
  have types : b₃.Reached := exec_forM_ok (fun _ b => b.Reached) h₃ inputs
    fun _ t _ _ _ _ hb hstep => hb.step (s := .type t.1 t.2.description) (exec_bind_ok hstep)
  exact exec_forM_ok (fun _ b => b.Reached) h₄ types
    fun _ _ _ _ _ _ hb hstep => addFields_reached hb hstep

theorem built {s : Schema} (h : c.build = .ok s) : s.Built := by
  obtain ⟨b, registered, h⟩ := build_iff.mp h
  exact ⟨b, register_reached registered (.new _ _ _), h⟩

end SchemaConfig

end FieldPlan
