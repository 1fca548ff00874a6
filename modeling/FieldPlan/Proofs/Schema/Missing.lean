import FieldPlan.Proofs.Schema.Building

/-!
# What schemas name

A schema is built just if all that it names is registered.

* `Checks` : a computation that fails just if there is something to report, and reports that then;
* `Ty.Inside`, `InputTy.Inside` : a type inside another one, at any depth of lists;
* `SchemaBuilder.Unknown`, `SchemaBuilder.Missing` : what is named and not registered, as an error;
* `SchemaBuilder.finish_checks`, `SchemaBuilder.build_checks` : building fails just where something is
  missing.
-/

namespace FieldPlan

/-! ## Checks -/

section Checks

variable {ε α β : Type} {P Q : ε → Prop} {x : Except ε α}

/-- A computation that fails with something to report, and succeeds only if there is nothing. -/
structure Checks (P : ε → Prop) (x : Except ε α) : Prop where
  fails : Fails P x
  passes : ∀ a, x = .ok a → ∀ e, ¬P e

namespace Checks

theorem pure (h : ∀ e, ¬P e) (a : α) : Checks P (Pure.pure a : Except ε α) :=
  ⟨Fails.pure a, fun _ _ => h⟩

theorem throw {e : ε} (h : P e) : Checks P (MonadExcept.throw e : Except ε α) :=
  ⟨Fails.throw h, nofun⟩

theorem congr (h : Checks P x) (hpq : ∀ e, P e ↔ Q e) : Checks Q x :=
  ⟨h.fails.mono fun e => (hpq e).mp, fun a ha e => mt (hpq e).mpr (h.passes a ha e)⟩

theorem bind {k : α → Except ε β} (hx : Checks P x) (hk : ∀ a, Checks Q (k a)) :
    Checks (fun e => P e ∨ Q e) (x >>= k) where
  fails := Fails.bind (hx.fails.mono fun _ => .inl) fun a => (hk a).fails.mono fun _ => .inr
  passes b hb e he := by
    obtain ⟨a, ha, hb⟩ := bind_ok.mp hb
    exact he.elim (hx.passes a ha e) ((hk a).passes b hb e)

/-- A check with nothing to report after it. -/
theorem andThen {k : α → Except ε β} (hx : Checks P x) (hk : ∀ a, ∃ b, k a = .ok b) :
    Checks P (x >>= k) := by
  refine (hx.bind (Q := fun _ => False) fun a => ?_).congr fun e => iff_of_eq (or_false _)
  obtain ⟨b, hb⟩ := hk a
  rw [hb]
  exact .pure (fun _ h => h) b

theorem mapM {P : α → ε → Prop} {f : α → Except ε β} {as : List α}
    (h : ∀ a ∈ as, Checks (P a) (f a)) : Checks (fun e => ∃ a ∈ as, P a e) (as.mapM f) := by
  induction as with
  | nil => exact .pure (by simp) []
  | cons a as ih =>
    obtain ⟨hfirst, hrest⟩ := List.forall_mem_cons.mp h
    rw [List.mapM_cons]
    refine (hfirst.bind fun b => (ih hrest).andThen fun bs => ⟨b :: bs, rfl⟩).congr fun e => ?_
    rw [List.exists_mem_cons_iff]

/-- A loop that checks one item after the other. -/
theorem loop {P : α → ε → Prop} {f : α → Except ε Unit} {as : List α}
    (h : ∀ a ∈ as, Checks (P a) (f a)) : Checks (fun e => ∃ a ∈ as, P a e)
      (forIn as PUnit.unit fun a _ => do f a; Pure.pure (.yield PUnit.unit)) := by
  induction as with
  | nil => exact .pure (by simp) _
  | cons a as ih =>
    obtain ⟨hfirst, hrest⟩ := List.forall_mem_cons.mp h
    rw [List.forIn_cons, bind_assoc]
    refine (hfirst.bind (Q := fun e => ∃ a ∈ as, P a e) fun _ => ih hrest).congr fun e => ?_
    rw [List.exists_mem_cons_iff]

end Checks

end Checks

/-! ## Types inside types -/

/-- A type is inside another one, which is that type or lists of it at some depth. -/
inductive Ty.Inside (t : Ty) : Ty → Prop
  | self : Inside t t
  | list {u : Ty} (h : Inside t u) (nullable : Bool) : Inside t (.list u nullable)

/-- A type of arguments is inside another one, which is that type or lists of it at some depth. -/
inductive InputTy.Inside (t : InputTy) : InputTy → Prop
  | self : Inside t t
  | list {u : InputTy} (h : Inside t u) (nullable : Bool) : Inside t (.list u nullable)

theorem Ty.inside_of_entityName {name : String} :
    (t : Ty) → t.entityName = some name → ∃ n, (Ty.entity name n).Inside t
  | .entity _ n, rfl => ⟨n, .self⟩
  | .list u n, h => (inside_of_entityName u h).imp fun _ inside => inside.list n

theorem Ty.entityName_eq_some {t : Ty} {name : String} :
    t.entityName = some name ↔ ∃ n, (Ty.entity name n).Inside t := by
  refine ⟨inside_of_entityName t, ?_⟩
  rintro ⟨n, inside⟩
  induction inside with
  | self => rfl
  | list _ _ ih => exact ih

namespace SchemaBuilder

variable {b : SchemaBuilder}

/-! ## What is missing -/

/-- A type of arguments names an enumeration or an input object that is not registered. -/
inductive Unknown (b : SchemaBuilder) (t : InputTy) (name : String) : Prop
  | enum {n : Bool} (inside : (InputTy.enum name n).Inside t) (h : name ∉ b.enums.keys)
  | object {n : Bool} (inside : (InputTy.object name n).Inside t) (h : name ∉ b.inputs.keys)

/-- What a field names and is not registered, as an error. -/
inductive MissingIn (b : SchemaBuilder) (pending : PendingField) : SchemaError → Prop
  | entity {name : String} {n : Bool} (inside : (Ty.entity name n).Inside pending.field.ty)
      (h : name ∉ b.types.keys) :
      MissingIn b pending (.unknownType name (.field pending.field.owner pending.field.name))
  | argument {a : ArgumentDef} {name : String} (ha : a ∈ pending.field.arguments.values)
      (h : b.Unknown a.ty name) :
      MissingIn b pending (.unknownType name (.field pending.field.owner pending.field.name))
  | source {owner name : String} (hi : pending.inherit = some (owner, name))
      (h : b.fieldId? owner name = none) :
      MissingIn b pending (.unknownField owner name (.field pending.field.owner pending.field.name))

/-- What is named and not registered, as an error. -/
inductive Missing (b : SchemaBuilder) : SchemaError → Prop
  | query (h : b.query ∉ b.types.keys) : Missing b (.unknownType b.query .root)
  | mutation {name : String} (hm : b.mutation = some name) (h : name ∉ b.types.keys) :
      Missing b (.unknownType name .root)
  | field {pending : PendingField} {e : SchemaError} (hp : pending ∈ b.fields)
      (h : b.MissingIn pending e) : Missing b e
  | input {input : InputObject} {t : InputTy} {name : String} (hi : input ∈ b.inputs.values)
      (ht : t ∈ input.fields.values) (h : b.Unknown t name) :
      Missing b (.unknownType name (.input input.name))

/-! ## Building -/

theorem checkType_checks (referrer : Referrer) (name : String) :
    Checks (fun e => name ∉ b.types.keys ∧ e = .unknownType name referrer)
      (b.checkType referrer name) := by
  unfold checkType
  split
  · rename_i known
    exact .pure (fun e h => h.1 ((Dict.contains_iff _ _).mp known)) ()
  · rename_i unknown
    exact .throw ⟨mt (Dict.contains_iff _ _).mpr unknown, rfl⟩

theorem unknown_list {t : InputTy} {n : Bool} {name : String} :
    b.Unknown (.list t n) name ↔ b.Unknown t name := by
  refine ⟨fun h => ?_, fun h => ?_⟩
  · cases h with
    | enum inside h =>
      cases inside with
      | list inside => exact .enum inside h
    | object inside h =>
      cases inside with
      | list inside => exact .object inside h
  · cases h with
    | enum inside h => exact .enum (inside.list n) h
    | object inside h => exact .object (inside.list n) h

theorem checkInput_checks (referrer : Referrer) (t : InputTy) :
    Checks (fun e => ∃ name, b.Unknown t name ∧ e = .unknownType name referrer)
      (b.checkInput referrer t) := by
  induction t with
  | scalar s n =>
    refine .pure (fun e => ?_) ()
    rintro ⟨name, ⟨⟨⟩, -⟩ | ⟨⟨⟩, -⟩, -⟩
  | enum name n =>
    rw [checkInput]
    split
    · rename_i known
      refine .pure (fun e => ?_) ()
      rintro ⟨name, ⟨⟨⟩, unknown⟩ | ⟨⟨⟩, -⟩, -⟩
      exact unknown ((Dict.contains_iff _ _).mp known)
    · rename_i unknown
      exact .throw ⟨name, .enum .self (mt (Dict.contains_iff _ _).mpr unknown), rfl⟩
  | object name n =>
    rw [checkInput]
    split
    · rename_i known
      refine .pure (fun e => ?_) ()
      rintro ⟨name, ⟨⟨⟩, -⟩ | ⟨⟨⟩, unknown⟩, -⟩
      exact unknown ((Dict.contains_iff _ _).mp known)
    · rename_i unknown
      exact .throw ⟨name, .object .self (mt (Dict.contains_iff _ _).mpr unknown), rfl⟩
  | list t n ih => exact ih.congr fun e => exists_congr fun name => and_congr_left' unknown_list.symm

theorem checkEntity_checks (f : Field) :
    Checks (fun e => ∃ name n, (Ty.entity name n).Inside f.ty ∧ name ∉ b.types.keys ∧
      e = .unknownType name (.field f.owner f.name)) (b.checkEntity f) := by
  unfold checkEntity FieldDef.entity
  cases he : f.ty.entityName with
  | none =>
    refine .pure (fun e => ?_) ()
    rintro ⟨name, n, inside, -⟩
    cases he.symm.trans (Ty.entityName_eq_some.mpr ⟨n, inside⟩)
  | some name =>
    refine (checkType_checks _ name).congr fun e => ⟨?_, ?_⟩
    · rintro ⟨h, rfl⟩
      obtain ⟨n, inside⟩ := Ty.entityName_eq_some.mp he
      exact ⟨name, n, inside, h, rfl⟩
    · rintro ⟨name', n, inside, h, rfl⟩
      cases he.symm.trans (Ty.entityName_eq_some.mpr ⟨n, inside⟩)
      exact ⟨h, rfl⟩

theorem link_checks (pending : PendingField) :
    Checks (fun e => ∃ owner name, pending.inherit = some (owner, name) ∧
      b.fieldId? owner name = none ∧
        e = .unknownField owner name (.field pending.field.owner pending.field.name))
      (b.link pending) := by
  unfold link
  split
  · rename_i hi
    refine .pure (fun e => ?_) _
    rintro ⟨owner, name, h, -⟩
    cases hi.symm.trans h
  · rename_i owner name hi
    split
    · rename_i id known
      refine .pure (fun e => ?_) _
      rintro ⟨owner', name', h, unknown, -⟩
      cases hi.symm.trans h
      cases known.symm.trans unknown
    · rename_i unknown
      exact .throw ⟨owner, name, hi, unknown, rfl⟩

theorem finish_checks (pending : PendingField) :
    Checks (b.MissingIn pending) (b.finish pending) := by
  rw [finish_steps]
  refine ((checkEntity_checks pending.field).bind fun _ =>
    (Checks.loop fun (a : ArgumentDef) _ => checkInput_checks _ a.ty).bind fun _ =>
      link_checks pending).congr fun e => ⟨?_, fun h => ?_⟩
  · rintro (⟨name, n, inside, h, rfl⟩ | ⟨a, ha, name, h, rfl⟩ | ⟨owner, name, hi, h, rfl⟩)
    · exact .entity inside h
    · exact .argument ha h
    · exact .source hi h
  · cases h with
    | entity inside h => exact .inl ⟨_, _, inside, h, rfl⟩
    | argument ha h => exact .inr (.inl ⟨_, ha, _, h, rfl⟩)
    | source hi h => exact .inr (.inr ⟨_, _, hi, h, rfl⟩)

theorem checkMutation_checks (b : SchemaBuilder) :
    Checks (fun e => ∃ name, b.mutation = some name ∧ name ∉ b.types.keys ∧
      e = .unknownType name .root) b.checkMutation := by
  unfold checkMutation
  split
  · rename_i name hm
    refine (checkType_checks _ name).congr fun e => ⟨?_, ?_⟩
    · rintro ⟨h, rfl⟩
      exact ⟨name, hm, h, rfl⟩
    · rintro ⟨name', hm', h, rfl⟩
      cases hm.symm.trans hm'
      exact ⟨h, rfl⟩
  · rename_i hm
    refine .pure (fun e => ?_) ()
    rintro ⟨name, hm', -⟩
    cases hm.symm.trans hm'

/-- Building fails just where something that is named is missing, and reports that. -/
theorem build_checks (b : SchemaBuilder) : Checks b.Missing b.build := by
  rw [build_steps]
  refine ((checkType_checks .root b.query).bind fun _ =>
    (checkMutation_checks b).bind fun _ =>
      (Checks.mapM fun pending _ => finish_checks pending).bind fun fields =>
        (Checks.loop fun (input : InputObject) _ => Checks.loop fun t _ =>
          checkInput_checks (.input input.name) t).andThen fun _ => ⟨_, rfl⟩).congr
            fun e => ⟨?_, fun h => ?_⟩
  · rintro (⟨h, rfl⟩ | ⟨name, hm, h, rfl⟩ | ⟨pending, hp, h⟩ | ⟨input, hi, t, ht, name, h, rfl⟩)
    · exact .query h
    · exact .mutation hm h
    · exact .field hp h
    · exact .input hi ht h
  · cases h with
    | query h => exact .inl ⟨h, rfl⟩
    | mutation hm h => exact .inr (.inl ⟨_, hm, h, rfl⟩)
    | field hp h => exact .inr (.inr (.inl ⟨_, hp, h⟩))
    | input hi ht h => exact .inr (.inr (.inr ⟨_, hi, _, ht, _, h, rfl⟩))

end SchemaBuilder

end FieldPlan
