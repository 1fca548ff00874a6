import FieldPlan.Proofs.Schema.Indexed
import FieldPlan.Proofs.Schema.Missing

/-!
# Registered schemas

Parts of a schema are registered one after the other, in any order, and each step is accepted or
refused.

* `SchemaBuilder.run` : what steps answer and leave behind, each made on the builder that the one
  before it has left; `SchemaBuilder.run_eraseIdx` : a refused step changes nothing for the others;
* `SchemaBuilder.run_checks` : a step is refused just if there is a reason, and for that reason;
* `accepted` : the accepted steps, with the numbers of fields;
* `SchemaBuilder.Holds` : a builder that holds what was accepted, and nothing else; every step keeps
  this (`SchemaBuilder.Holds.adds`), and so does a run (`SchemaBuilder.Holds.run`); every builder that
  steps lead to is one (`SchemaBuilder.Reached.holds`).
-/

namespace FieldPlan

namespace SchemaBuilder

variable {b b' : SchemaBuilder}

/-! ## Runs -/

/-- What steps answer one after the other, and the builder that they leave behind. The builder that a
step leaves, accepted or refused, is the one that the next step is made on. -/
def run (b : SchemaBuilder) :
    List SchemaStep → List (Except SchemaError (Option FieldId)) × SchemaBuilder
  | [] => ([], b)
  | s :: rest =>
    let (answer, b') := step s b
    let (answers, last) := b'.run rest
    (answer :: answers, last)

theorem run_cons {s : SchemaStep} {answer : Except SchemaError (Option FieldId)}
    (h : step s b = (answer, b')) (rest : List SchemaStep) :
    b.run (s :: rest) = (answer :: (b'.run rest).1, (b'.run rest).2) := by
  rw [run, h]

theorem Reached.run (h : b.Reached) (steps : List SchemaStep) : (b.run steps).2.Reached := by
  induction steps generalizing b with
  | nil => exact h
  | cons s rest ih => exact ih (h.step (s := s) rfl)

/-- Without a refused step all others answer the same and leave the same behind. -/
theorem run_eraseIdx {steps : List SchemaStep} {i : Nat} {e : SchemaError}
    (h : (b.run steps).1[i]? = some (.error e)) :
    b.run (steps.eraseIdx i) = ((b.run steps).1.eraseIdx i, (b.run steps).2) := by
  induction steps generalizing b i with
  | nil => simp [run] at h
  | cons s rest ih =>
    obtain ⟨answer, b', hs⟩ : ∃ answer b', step s b = (answer, b') := ⟨_, _, rfl⟩
    rw [run_cons hs] at h ⊢
    cases i with
    | zero =>
      obtain rfl : answer = .error e := by simpa using h
      rw [step_refused hs]
      rfl
    | succ i =>
      rw [List.eraseIdx_cons_succ, run_cons hs, ih (by simpa using h)]
      rfl

/-- A step is refused just if the builder that it is made on gives a reason, and for that reason. -/
theorem run_checks {steps : List SchemaStep} {i : Nat} {s : SchemaStep} (h : steps[i]? = some s) :
    ∃ answer, (b.run steps).1[i]? = some answer ∧
      Checks ((b.run (steps.take i)).2.Refuses s) answer := by
  induction steps generalizing b i with
  | nil => cases h
  | cons s' rest ih =>
    obtain ⟨answer, b', hs⟩ : ∃ answer b', step s' b = (answer, b') := ⟨_, _, rfl⟩
    rw [run_cons hs]
    cases i with
    | zero =>
      obtain rfl : s' = s := by simpa using h
      refine ⟨answer, rfl, ?_⟩
      rcases step_cases b s' with ⟨e, he, refused⟩ | ⟨id, b₁, ho, -, fine⟩
      · cases hs.symm.trans he
        exact .throw refused
      · cases hs.symm.trans ho
        exact .pure fine id
    | succ i =>
      rw [List.take_succ_cons, run_cons hs]
      exact ih h

end SchemaBuilder

/-! ## Accepted steps -/

/-- The steps that were accepted, with the numbers of the fields that they registered. -/
def accepted (steps : List SchemaStep) (answers : List (Except SchemaError (Option FieldId))) :
    List (SchemaStep × Option FieldId) :=
  (steps.zip answers).filterMap fun a => a.2.toOption.map fun id => (a.1, id)

/-- A field that is what a registration says, whatever parameters stand in its expression and from
whatever field it inherits arguments. -/
structure Field.Registered (f : Field) (r : Registration) : Prop where
  id : f.id = r.id
  owner : f.owner = r.owner
  name : f.name = r.spec.name
  described : ∃ p a link,
    f = { SchemaBuilder.fieldOf r.owner r.spec r.id p a with useArgumentsFrom := link }

/-- A field as it was registered, whose source of arguments has no number yet. -/
structure PendingField.Registered (pending : PendingField) (r : Registration) : Prop where
  field : pending.field.Registered r
  unlinked : pending.field.useArgumentsFrom = none
  inherit : pending.inherit = r.spec.inherit

/-! ## Builders -/

/-- A builder that holds what was accepted, and nothing else, in tables that agree. -/
structure SchemaBuilder.Holds (b : SchemaBuilder) (query : String) (mutation : Option String)
    (done : List (SchemaStep × Option FieldId)) : Prop where
  query : b.query = query
  mutation : b.mutation = mutation
  types : b.types = done.filterMap (·.1.type?)
  inputs : b.inputs = done.filterMap (·.1.input?)
  enums : b.enums = done.filterMap (·.1.enum?)
  fields : List.Forall₂ PendingField.Registered b.fields (done.filterMap registration?)
  indexed : b.Indexed
  oneOf : ∀ input ∈ b.inputs.values, input.oneOf = true →
    ∀ t ∈ input.fields.values, t.nullable = true

namespace SchemaBuilder

variable {b b' : SchemaBuilder} {query : String} {mutation : Option String}
  {done : List (SchemaStep × Option FieldId)}

theorem Holds.new (query : String) (mutation : Option String) (fresh : Nat) :
    (SchemaBuilder.new query mutation fresh).Holds query mutation [] where
  query := rfl
  mutation := rfl
  types := rfl
  inputs := rfl
  enums := rfl
  fields := .nil
  indexed := .new query mutation fresh
  oneOf := by simp [SchemaBuilder.new, Dict.values]

/-- An accepted step is held from then on. -/
theorem Holds.adds (h : b.Holds query mutation done) {s : SchemaStep} {id : Option FieldId}
    (hs : step s b = (.ok id, b')) : b'.Holds query mutation (done ++ [(s, id)]) := by
  obtain ⟨adds, fine⟩ := step_ok hs
  exact {
    query := adds.query.trans h.query
    mutation := adds.mutation.trans h.mutation
    types := by
      rw [adds.types, h.types, List.filterMap_append, List.filterMap_cons]
      cases s.type? <;> rfl
    inputs := by
      rw [adds.inputs, h.inputs, List.filterMap_append, List.filterMap_cons]
      cases s.input? <;> rfl
    enums := by
      rw [adds.enums, h.enums, List.filterMap_append, List.filterMap_cons]
      cases s.enum? <;> rfl
    fields := by
      rw [List.filterMap_append, List.filterMap_cons]
      rcases adds.fields with ⟨none, same, -⟩ | ⟨owner, spec, p, a, some, more, -⟩
      · rw [none, same]
        exact (List.append_nil _).symm ▸ h.fields
      · rw [some, more]
        exact List.rel_append h.fields (.cons ⟨⟨rfl, rfl, rfl, p, a, none, rfl⟩, rfl, rfl⟩ .nil)
    indexed := h.indexed.step hs
    oneOf := by
      intro input hi
      rw [adds.inputs, Dict.values, List.map_append, List.mem_append] at hi
      rcases hi with hi | hi
      · exact h.oneOf input hi
      · obtain ⟨⟨name, object⟩, ho, rfl⟩ := List.mem_map.mp hi
        cases s with
        | input object' =>
          cases Option.mem_toList.mp ho
          intro one t ht
          by_contra nonNull
          exact fine _ (.oneOf one ht (Bool.not_eq_true _ ▸ nonNull))
        | _ => cases ho }

/-- Steps leave behind a builder that holds those of them that were accepted. -/
theorem Holds.run (h : b.Holds query mutation done) (steps : List SchemaStep) :
    (b.run steps).2.Holds query mutation (done ++ accepted steps (b.run steps).1) := by
  induction steps generalizing b done with
  | nil => exact (List.append_nil done).symm ▸ h
  | cons s rest ih =>
    obtain ⟨answer, b', hs⟩ : ∃ answer b', step s b = (answer, b') := ⟨_, _, rfl⟩
    rw [run_cons hs]
    cases answer with
    | error e =>
      obtain rfl := step_refused hs
      exact ih h
    | ok id =>
      have := ih (h.adds hs)
      rwa [List.append_assoc] at this

/-- A builder that steps lead to holds what was registered on the way. -/
theorem Reached.holds (h : b.Reached) : ∃ query mutation done, b.Holds query mutation done := by
  induction h with
  | new query mutation fresh => exact ⟨query, mutation, [], .new query mutation fresh⟩
  | @step b b' s answer _ hs ih =>
    obtain ⟨query, mutation, done, held⟩ := ih
    cases answer with
    | error e => exact ⟨query, mutation, done, step_refused hs ▸ held⟩
    | ok id => exact ⟨query, mutation, _, held.adds hs⟩

end SchemaBuilder

end FieldPlan
