import FieldPlan.Proofs.Success
import FieldPlan.Schema.Builder

/-!
# Building a schema, step by step

* `SchemaBuilder.finish_steps`, `SchemaBuilder.link` : a field is finished after its checks, by the
  number of the field whose arguments it inherits; `SchemaBuilder.link_with` : nothing else changes;
* `SchemaBuilder.build_steps`, `SchemaBuilder.schema` : a schema is built after its checks, from the
  finished fields; `SchemaBuilder.build_eq` : nothing else is in it.
-/

namespace FieldPlan

namespace SchemaBuilder

variable {b : SchemaBuilder}

/-! ## Fields -/

/-- Checks the entity that a field selects into. -/
def checkEntity (b : SchemaBuilder) (f : Field) : Except SchemaError Unit :=
  match f.entity with
  | some entity => b.checkType (.field f.owner f.name) entity
  | none => pure ()

/-- A field with the number of the field whose arguments it inherits. -/
def link (b : SchemaBuilder) (pending : PendingField) : Except SchemaError Field :=
  match pending.inherit with
  | none => pure pending.field
  | some (owner, name) =>
    match b.fieldId? owner name with
    | some id => pure { pending.field with useArgumentsFrom := some id }
    | none => throw (.unknownField owner name (.field pending.field.owner pending.field.name))

theorem finish_steps (pending : PendingField) : b.finish pending = (do
    b.checkEntity pending.field
    for a in pending.field.arguments.values do
      b.checkInput (.field pending.field.owner pending.field.name) a.ty
    b.link pending) := by
  unfold finish checkEntity
  dsimp only
  cases pending.field.entity <;> rfl

/-- A finished field is the registered one, with the number of the field whose arguments it inherits. -/
theorem link_ok {pending : PendingField} {f : Field} (h : b.link pending = .ok f) :
    pending.inherit = none ∧ f = pending.field ∨
      ∃ owner name id, pending.inherit = some (owner, name) ∧ b.fieldId? owner name = some id ∧
        f = { pending.field with useArgumentsFrom := some id } := by
  unfold link at h
  split at h
  · rename_i hi
    cases h
    exact .inl ⟨hi, rfl⟩
  · rename_i owner name hi
    split at h
    · rename_i id hid
      cases h
      exact .inr ⟨owner, name, id, hi, hid, rfl⟩
    · cases h

/-- Finishing a field changes nothing but the number of the field whose arguments it inherits. -/
theorem link_with {pending : PendingField} {f : Field} (h : b.link pending = .ok f) :
    f = { pending.field with useArgumentsFrom := f.useArgumentsFrom } := by
  rcases link_ok h with ⟨-, rfl⟩ | ⟨_, _, _, -, -, rfl⟩ <;> rfl

theorem finish_eq {pending : PendingField} {f : Field} (h : b.finish pending = .ok f) :
    b.link pending = .ok f := by
  rw [finish_steps] at h
  obtain ⟨-, -, h⟩ := bind_ok.mp h
  obtain ⟨-, -, h⟩ := bind_ok.mp h
  exact h

/-! ## Schemas -/

def checkMutation (b : SchemaBuilder) : Except SchemaError Unit :=
  match b.mutation with
  | some mutation => b.checkType .root mutation
  | none => pure ()

def schema (b : SchemaBuilder) (fields : List Field) : Schema where
  query := b.query
  mutation := b.mutation
  types := b.objects fields
  inputs := b.inputs
  enums := b.enums
  fields := fields
  directives := b.directives
  fresh := b.fresh

theorem build_steps (b : SchemaBuilder) : b.build = (do
    b.checkType .root b.query
    b.checkMutation
    let fields ← b.fields.mapM b.finish
    for input in b.inputs.values do
      for t in input.fields.values do
        b.checkInput (.input input.name) t
    pure (b.schema fields)) := by
  unfold build checkMutation schema
  dsimp only
  cases b.mutation <;> rfl

theorem build_eq {s : Schema} (h : b.build = .ok s) :
    ∃ fields, List.Forall₂ (fun pending f => b.link pending = .ok f) b.fields fields ∧
      s = b.schema fields := by
  rw [build_steps] at h
  obtain ⟨-, -, h⟩ := bind_ok.mp h
  obtain ⟨-, -, h⟩ := bind_ok.mp h
  obtain ⟨fields, hfields, h⟩ := bind_ok.mp h
  obtain ⟨-, -, h⟩ := bind_ok.mp h
  cases h
  exact ⟨fields, (mapM_ok hfields).imp fun _ _ => finish_eq, rfl⟩

end SchemaBuilder

end FieldPlan
