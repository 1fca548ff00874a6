import Mathlib.Data.List.Nodup
import FieldPlan.Proofs.Schema.Building
import FieldPlan.Proofs.Schema.Steps

/-!
# Tables that agree

A builder keeps its fields by number and an index of their owners and names; a schema has its fields
by number and once more by the names of each entity.

* `SchemaBuilder.Indexed` : the index of a builder has the number of each field and no other; every
  step keeps this (`SchemaBuilder.Indexed.step`), so it holds of what steps lead to;
* `SchemaBuilder.objects_eq` : the entities of a schema have the fields of their name, in order;
* `Schema.Indexed` : the tables of a schema agree, for every built schema (`Schema.Built.indexed`);
  `Schema.Indexed.field?_iff`, `Schema.Indexed.fieldById?_iff` : so fields are found by both.
-/

namespace FieldPlan

/-- Changing an entry of a table whose values are computed from other entries. -/
theorem Dict.modify_map {α β : Type} {d : Dict α} (hd : d.keys.Nodup) (f : String → α → β)
    (g : β → β) (name : String) :
    Dict.modify (d.map fun e => (e.1, f e.1 e.2)) name g =
      d.map fun e => (e.1, if e.1 = name then g (f e.1 e.2) else f e.1 e.2) := by
  induction d with
  | nil => rfl
  | cons e d ih =>
    simp only [keys, List.map_cons, List.nodup_cons] at hd
    have rest := ih hd.2
    unfold modify at rest ⊢
    rw [List.map_cons, List.map_cons, find?_cons]
    by_cases he : e.1 = name
    · subst he
      have others : d.map (fun x => (x.1, if x.1 = e.1 then g (f x.1 x.2) else f x.1 x.2)) =
          d.map fun x => (x.1, f x.1 x.2) := List.map_congr_left fun x hx => by
        have other : x.1 ≠ e.1 := fun h => hd.1 (h ▸ List.mem_map_of_mem (f := (·.1)) hx)
        rw [if_neg other]
      simp [others, insert]
    · rw [if_neg he, ← rest]
      cases find? (d.map fun e => (e.1, f e.1 e.2)) name with
      | none => simp [he]
      | some v => simp [insert, he]

/-- The owner and the name of a field. -/
def FieldDef.key (f : FieldDef) : String × String := (f.owner, f.name)

/-! ## Builders -/

namespace SchemaBuilder

variable {b b' : SchemaBuilder}

/-- The tables of a builder agree: entities have distinct names, each field stands at the place of
its number and has an entity for its owner, and the index has the number of each field under its
owner and name and nothing else. -/
structure Indexed (b : SchemaBuilder) : Prop where
  types : b.types.keys.Nodup
  numbered : b.fields.map (·.field.id) = List.range b.fields.length
  owners : ∀ pending ∈ b.fields, pending.field.owner ∈ b.types.keys
  index : ∀ owner name id, b.fieldId? owner name = some id ↔
    ∃ pending, b.fields[id]? = some pending ∧ pending.field.key = (owner, name)

theorem Indexed.new (query : String) (mutation : Option String) (fresh : Nat) :
    (SchemaBuilder.new query mutation fresh).Indexed where
  types := List.nodup_nil
  numbered := rfl
  owners := by simp [SchemaBuilder.new]
  index := by simp [SchemaBuilder.new, fieldId?]

/-- No two fields have the same owner and name, since the index has one number for both. -/
theorem Indexed.distinct (h : b.Indexed) : (b.fields.map (·.field.key)).Nodup := by
  refine List.nodup_iff_getElem?_ne_getElem?.mpr fun i j before within same => ?_
  rw [List.length_map] at within
  have last := List.getElem?_eq_getElem within
  rw [List.getElem?_map, List.getElem?_map, last] at same
  obtain ⟨pending, first, key⟩ := Option.map_eq_some_iff.mp same
  have found := (h.index _ _ i).mpr ⟨pending, first, key⟩
  have found' := (h.index _ _ j).mpr ⟨_, last, rfl⟩
  exact Nat.ne_of_lt before (Option.some.inj (found.symm.trans found'))

/-- One more field, whose owner and name are new to the index. -/
theorem Indexed.push (h : b.Indexed) {owner : String} {spec : FieldSpec} {f : PendingField}
    (key : f.field.key = (owner, spec.name)) (number : f.field.id = b.fields.length)
    (known : owner ∈ b.types.keys) (new : b.fieldId? owner spec.name = none) {b' : SchemaBuilder}
    (types : b'.types = b.types) (fields : b'.fields = b.fields ++ [f])
    (index : b'.index = ((owner, spec.name), b.fields.length) :: b.index) : b'.Indexed where
  types := types ▸ h.types
  numbered := by
    rw [fields, List.map_append, h.numbered, List.map_singleton, number, List.length_append,
      List.length_singleton, List.range_succ]
  owners := by
    rw [fields, types]
    refine List.forall_mem_append.mpr ⟨h.owners, List.forall_mem_singleton.mpr ?_⟩
    exact (Prod.mk.inj key).1 ▸ known
  index owner' name id := by
    have latest : b'.fieldId? owner' name = if (owner', name) = (owner, spec.name) then
        some b.fields.length else b.fieldId? owner' name := by
      unfold fieldId?
      rw [index, List.lookup_cons]
      split <;> simp_all
    rw [latest, fields]
    split
    · rename_i same
      cases same
      constructor
      · rintro ⟨⟩
        exact ⟨f, List.getElem?_concat_length, key⟩
      · rintro ⟨pending, hp, hk⟩
        rw [List.getElem?_append] at hp
        split at hp
        · have := (h.index owner spec.name id).mpr ⟨pending, hp, hk⟩
          cases new.symm.trans this
        · rename_i past
          obtain ⟨at_end, -⟩ := List.getElem?_eq_some_iff.mp hp
          rw [List.length_singleton] at at_end
          exact congrArg some (by omega)
    · rename_i other
      rw [h.index]
      refine exists_congr fun pending => and_congr_left fun hk => ?_
      rw [List.getElem?_append]
      split
      · rfl
      · rename_i past
        constructor
        · intro hp
          obtain ⟨within, -⟩ := List.getElem?_eq_some_iff.mp hp
          exact absurd within past
        · intro hp
          have : pending = f := by
            simpa using List.mem_of_getElem? hp
          exact absurd (hk.symm.trans (this ▸ key)) other

/-- A step that registers no field. -/
theorem Indexed.keep (h : b.Indexed) (types : b'.types.keys.Nodup)
    (known : ∀ name ∈ b.types.keys, name ∈ b'.types.keys) (fields : b'.fields = b.fields)
    (index : b'.index = b.index) : b'.Indexed where
  types := types
  numbered := fields.symm ▸ h.numbered
  owners := fun pending hp => known _ (h.owners pending (fields ▸ hp))
  index := fun owner name id => by
    rw [fieldId?, index, fields]
    exact h.index owner name id

/-- Every step keeps the tables in agreement, whether it is accepted or refused. -/
theorem Indexed.step (h : b.Indexed) {s : SchemaStep} {answer : Except SchemaError (Option FieldId)}
    (hs : step s b = (answer, b')) : b'.Indexed := by
  cases answer with
  | error e => exact step_refused hs ▸ h
  | ok id =>
    obtain ⟨adds, fine⟩ := step_ok hs
    rcases adds.fields with ⟨none, fields, index⟩ | ⟨owner, spec, p, a, some, fields, index⟩
    · have known : ∀ name ∈ b.types.keys, name ∈ b'.types.keys := fun name known => by
        rw [adds.types, Dict.keys_append]
        exact List.mem_append_left _ known
      refine h.keep ?_ known fields index
      rw [adds.types]
      cases s with
      | type name description =>
        have new : name ∉ b.types.keys := fun known => fine _ (.type known)
        exact Dict.insert_of_not_mem new description ▸ Dict.nodup_insert h.types name description
      | _ => exact (List.append_nil _).symm ▸ h.types
    · cases s with
      | field owner' spec' =>
        cases id with
        | none => cases some
        | some n =>
          cases some
          have known : owner ∈ b.types.keys := by
            by_contra unknown
            exact fine _ (.owner unknown)
          have new : b.fieldId? owner spec.name = none := by
            by_contra taken
            exact fine _ (.field known taken)
          exact h.push rfl rfl known new (adds.types.trans (List.append_nil _)) fields index
      | _ => cases some

theorem Reached.indexed (h : b.Reached) : b.Indexed := by
  induction h with
  | new query mutation fresh => exact .new query mutation fresh
  | step _ hs ih => exact ih.step hs

end SchemaBuilder

/-! ## Entities with their fields -/

/-- An entity with those of some fields that it owns, in their order. -/
def ObjectType.of (fields : List Field) (name : String) (description : Option String) : ObjectType :=
  ⟨name, (fields.filter (·.owner == name)).map fun f => (f.name, f), description⟩

namespace SchemaBuilder

variable {b : SchemaBuilder}

theorem enter_of {types : Dict (Option String)} (nodup : types.keys.Nodup) {done : List Field}
    {f : Field} (new : f.key ∉ done.map (·.key)) :
    enter (types.map fun t => (t.1, .of done t.1 t.2)) f =
      types.map fun t => (t.1, .of (done ++ [f]) t.1 t.2) := by
  rw [enter, Dict.modify_map nodup (fun name description => ObjectType.of done name description)]
  refine List.map_congr_left fun t _ => congrArg (t.1, ·) ?_
  unfold ObjectType.of
  rw [List.filter_append, List.map_append]
  split
  · rename_i own
    have unnamed : f.name ∉ Dict.keys ((done.filter (·.owner == t.1)).map fun f => (f.name, f)) := by
      intro h
      obtain ⟨e, he, hname⟩ := List.mem_map.mp h
      obtain ⟨g, hg, rfl⟩ := List.mem_map.mp he
      obtain ⟨hdone, howner⟩ := List.mem_filter.mp hg
      exact new (List.mem_map.mpr ⟨g, hdone, Prod.ext ((beq_iff_eq.mp howner).trans own) hname⟩)
    rw [Dict.insert_of_not_mem unnamed]
    simp [own]
  · rename_i other
    simp [Ne.symm other]

/-- Entered one after the other, fields stand with their owners in their order. -/
theorem objects_eq (nodup : b.types.keys.Nodup) {fields : List Field}
    (distinct : (fields.map (·.key)).Nodup) :
    b.objects fields = b.types.map fun t => (t.1, .of fields t.1 t.2) := by
  suffices from_done : ∀ rest done : List Field, ((done ++ rest).map (·.key)).Nodup →
      rest.foldl enter (b.types.map fun t => (t.1, .of done t.1 t.2)) =
        b.types.map fun t => (t.1, .of (done ++ rest) t.1 t.2) from from_done fields [] distinct
  intro rest
  induction rest with
  | nil => simp
  | cons f rest ih =>
    intro done distinct
    have new : f.key ∉ done.map (·.key) := by
      rw [List.map_append, List.map_cons, List.nodup_append] at distinct
      exact fun h => distinct.2.2 _ h _ List.mem_cons_self rfl
    rw [List.foldl_cons, enter_of nodup new, ih (done ++ [f]) (by simpa using distinct)]
    simp

end SchemaBuilder

/-! ## Schemas -/

/-- The tables of a schema agree: each field stands at the place of its number, no two have the same
owner and name, and each entity has the fields that it owns, in order, and no others. -/
structure Schema.Indexed (s : Schema) : Prop where
  types : s.types.keys.Nodup
  numbered : s.fields.map (·.id) = List.range s.fields.length
  distinct : (s.fields.map (·.key)).Nodup
  owners : ∀ f ∈ s.fields, f.owner ∈ s.types.keys
  objects : ∀ e ∈ s.types, e.2 = .of s.fields e.1 e.2.description

namespace Schema.Indexed

variable {s : Schema}

theorem id_eq (h : s.Indexed) {i : Nat} {f : Field} (hf : s.fields[i]? = some f) : f.id = i := by
  have place : (s.fields.map (·.id))[i]? = some f.id := by
    rw [List.getElem?_map, hf]
    rfl
  rw [h.numbered, List.getElem?_eq_some_iff] at place
  obtain ⟨_, hi⟩ := place
  rw [← hi, List.getElem_range]

theorem fieldById?_iff (h : s.Indexed) {id : FieldId} {f : Field} :
    s.fieldById? id = some f ↔ f ∈ s.fields ∧ f.id = id := by
  refine ⟨fun hf => ⟨List.mem_of_getElem? hf, h.id_eq hf⟩, ?_⟩
  rintro ⟨hm, rfl⟩
  obtain ⟨i, hi⟩ := List.mem_iff_getElem?.mp hm
  exact (congrArg (s.fields[·]?) (h.id_eq hi)).trans hi

theorem object_eq (h : s.Indexed) {owner : String} {object : ObjectType}
    (ho : s.types.find? owner = some object) : object = .of s.fields owner object.description :=
  h.objects _ (Dict.mem_of_find? ho)

theorem field?_ok (h : s.Indexed) {owner name : String} {f : Field}
    (hf : s.field? owner name = some f) : f ∈ s.fields ∧ f.owner = owner ∧ f.name = name := by
  obtain ⟨object, ho, hn⟩ := Option.bind_eq_some_iff.mp hf
  rw [h.object_eq ho] at hn
  obtain ⟨g, hg, ⟨⟩⟩ := List.mem_map.mp (Dict.mem_of_find? hn)
  obtain ⟨hm, own⟩ := List.mem_filter.mp hg
  exact ⟨hm, beq_iff_eq.mp own, rfl⟩

theorem field?_iff (h : s.Indexed) {owner name : String} {f : Field} :
    s.field? owner name = some f ↔ f ∈ s.fields ∧ f.owner = owner ∧ f.name = name := by
  refine ⟨h.field?_ok, ?_⟩
  rintro ⟨hm, rfl, rfl⟩
  obtain ⟨object, ho⟩ := Option.ne_none_iff_exists'.mp
    fun none => (Dict.find?_eq_none _ _).mp none (h.owners f hm)
  have entered : (f.name, f) ∈ object.fields := by
    rw [h.object_eq ho]
    exact List.mem_map.mpr ⟨f, List.mem_filter.mpr ⟨hm, beq_self_eq_true _⟩, rfl⟩
  cases hg : s.field? f.owner f.name with
  | none =>
    rw [Schema.field?, ho, Option.bind_some, Dict.find?_eq_none] at hg
    exact absurd (List.mem_map_of_mem (f := (·.1)) entered) hg
  | some g =>
    obtain ⟨hgm, hown, hname⟩ := h.field?_ok hg
    exact congrArg some (List.inj_on_of_nodup_map h.distinct hgm hm (Prod.ext hown hname))

end Schema.Indexed

theorem map_eq_of_forall₂ {α β γ : Type} {R : α → β → Prop} {f : α → γ} {g : β → γ} {as : List α}
    {bs : List β} (h : List.Forall₂ R as bs) (same : ∀ a b, R a b → f a = g b) :
    as.map f = bs.map g := by
  induction h with
  | nil => rfl
  | cons hab _ ih => rw [List.map_cons, List.map_cons, same _ _ hab, ih]

theorem SchemaBuilder.link_key {b : SchemaBuilder} {pending : PendingField} {f : Field}
    (h : b.link pending = .ok f) : f.key = pending.field.key := by
  rw [link_with h]
  rfl

namespace SchemaBuilder.Indexed

variable {b : SchemaBuilder} {fields : List Field}

theorem keys_eq (linked : List.Forall₂ (fun pending f => b.link pending = .ok f) b.fields fields) :
    b.fields.map (·.field.key) = fields.map (·.key) :=
  map_eq_of_forall₂ linked fun _ _ hl => (link_key hl).symm

theorem types_eq (h : b.Indexed)
    (linked : List.Forall₂ (fun pending f => b.link pending = .ok f) b.fields fields) :
    (b.schema fields).types = b.types.map fun t => (t.1, .of fields t.1 t.2) :=
  objects_eq h.types (keys_eq linked ▸ h.distinct)

theorem names_eq (h : b.Indexed)
    (linked : List.Forall₂ (fun pending f => b.link pending = .ok f) b.fields fields) :
    (b.schema fields).types.keys = b.types.keys := by
  rw [h.types_eq linked, Dict.keys, List.map_map]
  rfl

/-- What is built from tables that agree is made of tables that agree. -/
theorem build (h : b.Indexed)
    (linked : List.Forall₂ (fun pending f => b.link pending = .ok f) b.fields fields) :
    (b.schema fields).Indexed where
  types := h.names_eq linked ▸ h.types
  numbered := by
    have ids : b.fields.map (·.field.id) = fields.map (·.id) :=
      map_eq_of_forall₂ linked fun _ _ hl => by rw [link_with hl]
    exact ids.symm.trans (h.numbered.trans (congrArg List.range linked.length_eq))
  distinct := keys_eq linked ▸ h.distinct
  owners := fun f hf => by
    obtain ⟨pending, hp, hl⟩ := exists_of_forall₂ linked hf
    rw [h.names_eq linked, link_with hl]
    exact h.owners pending hp
  objects := fun e he => by
    rw [h.types_eq linked] at he
    obtain ⟨t, -, rfl⟩ := List.mem_map.mp he
    rfl

/-- The number that a name has while fields are registered is the number of the field that stands
under the name in the end. -/
theorem source_found (h : b.Indexed)
    (linked : List.Forall₂ (fun pending f => b.link pending = .ok f) b.fields fields)
    {owner name : String} {id : FieldId} (hid : b.fieldId? owner name = some id) :
    ∃ g, (b.schema fields).field? owner name = some g ∧ g.id = id := by
  have indexed := h.build linked
  obtain ⟨pending, hp, key⟩ := (h.index owner name id).mp hid
  obtain ⟨within, rfl⟩ := List.getElem?_eq_some_iff.mp hp
  have there : id < fields.length := linked.length_eq ▸ within
  have place : fields[id]? = some (fields.get ⟨id, there⟩) := List.getElem?_eq_getElem there
  have finished := (List.forall₂_iff_get.mp linked).2 id within there
  exact ⟨_, indexed.field?_iff.mpr ⟨List.mem_of_getElem? place,
    Prod.mk.inj ((link_key finished).trans key)⟩, indexed.id_eq place⟩

end SchemaBuilder.Indexed

theorem Schema.Built.indexed {s : Schema} (h : s.Built) : s.Indexed := by
  obtain ⟨b, reached, built⟩ := h
  obtain ⟨fields, linked, rfl⟩ := SchemaBuilder.build_eq built
  exact reached.indexed.build linked

theorem SchemaConfig.indexed {c : SchemaConfig} {s : Schema} (h : c.build = .ok s) : s.Indexed :=
  (SchemaConfig.built h).indexed

end FieldPlan
