import FieldPlan.Proofs.Schema.Complete
import FieldPlan.Proofs.Schema.Inhabiting
import FieldPlan.Proofs.Selection.Inheritance

/-!
# Arguments of a field

* `Schema.Declares` : the arguments that may be given to a field;
* `Schema.Conforms`, `Schema.DefaultsGiven` : arguments of the declared types, with all that are
  required, and those among them that need no default;
* `Schema.Settled` : what a validated argument is; `Schema.setArgument_settled` and
  `Schema.setArgument_eq` : checking one argument settles it and changes no settled one;
* `Schema.arguments_validated` : what validation gives conforms and is not changed by another
  validation, as no conforming arguments are that need no default.
-/

namespace FieldPlan

theorem Dict.nodup_union {α : Type} {d : Dict α} (h : d.keys.Nodup) (e : Dict α) :
    (Dict.union d e).keys.Nodup :=
  List.foldlRecOn (motive := fun d : Dict α => d.keys.Nodup) _ _ h
    fun _ hd x _ => Dict.nodup_insertNew hd x.1 x.2

namespace Schema

variable {s : Schema} {f : FieldDef} {values out : Dict Json}

/-! ## Declared arguments -/

/-- The field declares an argument, or the field from which it inherits does and it does not. -/
inductive Declares (s : Schema) (f : FieldDef) (name : String) (d : ArgumentDef) : Prop
  | own (h : f.arguments.find? name = some d)
  | inherited {source : Field} (hs : f.useArgumentsFrom.bind s.fieldById? = some source)
      (new : name ∉ f.arguments.keys) (h : source.arguments.find? name = some d)

theorem find?_argumentDefs {name : String} {d : ArgumentDef} :
    (s.argumentDefs f).find? name = some d ↔ s.Declares f name d := by
  unfold argumentDefs
  cases hs : f.useArgumentsFrom.bind s.fieldById? with
  | none =>
    refine ⟨.own, fun h => ?_⟩
    cases h with
    | own h => exact h
    | inherited hs' => cases hs.symm.trans hs'
  | some source =>
    dsimp only
    rw [Dict.find?_union]
    cases ho : f.arguments.find? name with
    | some d' =>
      refine ⟨fun h => .own (ho.trans h), fun h => ?_⟩
      cases h with
      | own h => exact ho.symm.trans h
      | inherited _ new => rw [(Dict.find?_eq_none _ _).mpr new] at ho; cases ho
    | none =>
      refine ⟨fun h => .inherited hs ((Dict.find?_eq_none _ _).mp ho) h, fun h => ?_⟩
      cases h with
      | own h => cases ho.symm.trans h
      | inherited hs' _ h =>
        cases hs.symm.trans hs'
        exact h

theorem mem_keys_argumentDefs {name : String} :
    name ∈ (s.argumentDefs f).keys ↔ ∃ d, s.Declares f name d := by
  simp only [← find?_argumentDefs]
  rw [← not_iff_not, ← Dict.find?_eq_none]
  simp [Option.eq_none_iff_forall_ne_some]

theorem nodup_argumentDefs (tabled : f.arguments.keys.Nodup) : (s.argumentDefs f).keys.Nodup := by
  unfold argumentDefs
  split
  · exact Dict.nodup_union tabled _
  · exact tabled

theorem checkDeclared_ok {defs : Dict ArgumentDef} :
    checkDeclared f defs values = .ok () ↔ ∀ name ∈ values.keys, name ∈ defs.keys := by
  have undeclared : List.find? (fun name => !defs.contains name) values.keys = none ↔
      ∀ name ∈ values.keys, name ∈ defs.keys := by
    simp only [List.find?_eq_none, Bool.not_eq_true', Bool.not_eq_false, Dict.contains_iff]
  rw [← undeclared]
  unfold checkDeclared
  split
  · rename_i hn
    rw [hn]
    exact ⟨nofun, nofun⟩
  · rename_i hn
    rw [hn]
    exact ⟨fun _ => rfl, fun _ => rfl⟩

/-! ## Conforming arguments -/

/-- Only declared arguments are given, all that may not be null are, and those that are not null are
of their types. -/
structure Conforms (s : Schema) (f : FieldDef) (values : Dict Json) : Prop where
  declared : ∀ name ∈ values.keys, ∃ d, s.Declares f name d
  present : ∀ name d, s.Declares f name d → d.ty.nullable = false →
    ∃ v, values.find? name = some v ∧ v.isNull = false
  typed : ∀ name d v, s.Declares f name d → values.find? name = some v → v.isNull = false →
    s.Inhabits v d.ty

/-- Every argument with a default is given, and not as null unless the default is null. -/
def DefaultsGiven (s : Schema) (f : FieldDef) (values : Dict Json) : Prop :=
  ∀ name d default, s.Declares f name d → d.default = some default →
    ∃ v, values.find? name = some v ∧ (default.isNull = false → v.isNull = false)

/-- What a validated argument is. -/
structure Settled (s : Schema) (d : ArgumentDef) (given : Option Json) : Prop where
  present : d.ty.nullable = false → ∃ v, given = some v ∧ v.isNull = false
  typed : ∀ v, given = some v → v.isNull = false → s.Inhabits v d.ty
  default : ∀ default, d.default = some default →
    ∃ v, given = some v ∧ (default.isNull = false → v.isNull = false)

theorem conforms_iff : s.Conforms f values ∧ s.DefaultsGiven f values ↔
    (∀ name ∈ values.keys, ∃ d, s.Declares f name d) ∧
      ∀ name d, s.Declares f name d → s.Settled d (values.find? name) := by
  constructor
  · rintro ⟨conforms, given⟩
    exact ⟨conforms.declared, fun name d hd => ⟨conforms.present name d hd,
      fun v => conforms.typed name d v hd, fun default => given name d default hd⟩⟩
  · rintro ⟨declared, settled⟩
    exact ⟨⟨declared, fun name d hd => (settled name d hd).present,
      fun name d v hd => (settled name d hd).typed v⟩,
      fun name d default hd => (settled name d hd).default default⟩

/-! ## One argument -/

theorem provided_null {name : String} {default v : Json}
    (h : provided name (some default) values = some v) (hd : default.isNull = false) :
    v.isNull = false := by
  unfold provided at h
  split at h
  · cases h
    exact hd
  · cases h
    exact hd
  · rename_i w hw _
    cases h
    cases v with
    | null => exact absurd rfl hw
    | _ => rfl

theorem provided_given {name : String} {default : Option Json} {v : Json}
    (h : values.find? name = some v) (hv : v.isNull = false) :
    provided name default values = some v := by
  unfold provided
  rw [h]
  cases v with
  | null => cases hv
  | _ => rfl

theorem provided_of_null {name : String} {default : Option Json}
    (h : ∀ v, values.find? name = some v → v.isNull = true) :
    provided name default values = default := by
  unfold provided
  split
  · rfl
  · rfl
  · rename_i v hv hg
    have := h v hg
    cases v with
    | null => exact absurd rfl hv
    | _ => cases this

/-- Checking an argument settles it and leaves the others as they are. -/
theorem setArgument_settled {name : String} {d : ArgumentDef}
    (h : s.setArgument f values (name, d) = .ok out) : s.Settled d (out.find? name) ∧
      (∀ other, other ≠ name → out.find? other = values.find? other) ∧
        ∀ other ∈ out.keys, other ∈ values.keys ∨ other = name := by
  unfold setArgument at h
  cases hp : provided name d.default values with
  | some v =>
    simp only [hp] at h
    obtain ⟨w, hw, h⟩ := bind_ok.mp h
    cases h
    obtain ⟨typed, null⟩ := checkValue_sound v d.ty hw
    have found : (values.insert name w).find? name = some w := by rw [Dict.find?_insert, if_pos rfl]
    refine ⟨⟨fun hn => ⟨w, found, ?_⟩, fun v' hv' _ => ?_, fun default hd => ⟨w, found, ?_⟩⟩,
      fun other ho => ?_, fun other ho => (Dict.mem_keys_insert _ _ _ _).mp ho⟩
    · cases w with
      | null => exact absurd (nullable_of_inhabits_null typed) (by simp [hn])
      | _ => rfl
    · rw [found] at hv'
      cases hv'
      exact typed
    · intro hdn
      rw [hd] at hp
      exact null.trans (provided_null hp hdn)
    · rw [Dict.find?_insert, if_neg (Ne.symm ho)]
  | none =>
    simp only [hp] at h
    split at h
    · rename_i nullable
      cases h
      have null : ∀ v, values.find? name = some v → v.isNull = true := by
        intro v hv
        cases hn : v.isNull with
        | true => rfl
        | false =>
          rw [provided_given hv hn] at hp
          cases hp
      rw [provided_of_null null] at hp
      refine ⟨⟨fun hn => absurd nullable (by simp [hn]), fun v hv hn => ?_, fun default hd => ?_⟩,
        fun _ _ => rfl, fun _ ho => .inl ho⟩
      · rw [null v hv] at hn
        cases hn
      · rw [hp] at hd
        cases hd
    · cases h

/-- Checking a settled argument changes nothing. -/
theorem setArgument_eq {name : String} {d : ArgumentDef} (h : s.Settled d (values.find? name)) :
    s.setArgument f values (name, d) = .ok values := by
  have keeps : ∀ v, values.find? name = some v → s.Inhabits v d.ty →
      provided name d.default values = some v → s.setArgument f values (name, d) = .ok values := by
    intro v hv typed hp
    simp only [setArgument, hp, typed.checkValue_eq]
    exact congrArg Except.ok (Dict.insert_of_find? hv)
  have lenient : (∀ v, values.find? name = some v → v.isNull = true) → d.ty.nullable = true := by
    intro null
    cases hn : d.ty.nullable with
    | true => rfl
    | false =>
      obtain ⟨v, hv, hvn⟩ := h.present hn
      rw [null v hv] at hvn
      cases hvn
  by_cases given : ∃ v, values.find? name = some v ∧ v.isNull = false
  · obtain ⟨v, hv, hn⟩ := given
    exact keeps v hv (h.typed v hv hn) (provided_given hv hn)
  · have null : ∀ v, values.find? name = some v → v.isNull = true := by
      intro v hv
      by_contra hn
      exact given ⟨v, hv, by simpa using hn⟩
    cases hd : d.default with
    | none =>
      have hp : provided name d.default values = none := (provided_of_null null).trans hd
      simp only [setArgument, hp, if_pos (lenient null)]
      rfl
    | some default =>
      -- the default is null, as the argument is given as null
      obtain ⟨v, hv, hdv⟩ := h.default default hd
      have hdn : default.isNull = true := by
        by_contra hn
        exact given ⟨v, hv, hdv (by simpa using hn)⟩
      obtain rfl : default = .null := by cases default <;> first | rfl | cases hdn
      obtain rfl : v = .null := by
        have := null v hv
        cases v <;> first | rfl | cases this
      exact keeps .null hv (.null (lenient null)) ((provided_of_null null).trans hd)

/-! ## All arguments -/

theorem validate_ok : s.validate f values = .ok out ↔
    (∀ name ∈ values.keys, ∃ d, s.Declares f name d) ∧
      (s.argumentDefs f).foldlM (s.setArgument f) values = .ok out := by
  simp only [← mem_keys_argumentDefs]
  rw [← checkDeclared_ok]
  unfold validate
  rw [bind_ok]
  exact ⟨fun ⟨⟨⟩, hd, h⟩ => ⟨hd, h⟩, fun ⟨hd, h⟩ => ⟨(), hd, h⟩⟩

theorem validate_settles (tabled : f.arguments.keys.Nodup)
    (h : s.validate f values = .ok out) : s.Conforms f out ∧ s.DefaultsGiven f out := by
  obtain ⟨declared, h⟩ := validate_ok.mp h
  have nodup := nodup_argumentDefs (s := s) tabled
  obtain ⟨settled, keys⟩ := foldlM_ok (fun done out' =>
    (∀ e ∈ done, s.Settled e.2 (out'.find? e.1)) ∧
      ∀ name ∈ out'.keys, name ∈ values.keys ∨ name ∈ Dict.keys done) h
    ⟨by simp, fun name hn => .inl hn⟩ fun done e rest mid mid' split ⟨hs, hk⟩ step => by
      obtain ⟨here, others, known⟩ := setArgument_settled step
      refine ⟨List.forall_mem_append.mpr ⟨fun e' he' => ?_, List.forall_mem_singleton.mpr here⟩,
        fun name hn => ?_⟩
      · have apart : e'.1 ≠ e.1 := by
          rw [split, Dict.keys_append, List.nodup_append] at nodup
          exact nodup.2.2 _ (List.mem_map_of_mem he') _ List.mem_cons_self
        rw [others _ apart]
        exact hs e' he'
      · rw [Dict.keys_append, List.mem_append]
        rcases known name hn with hn | rfl
        · exact (hk name hn).imp_right .inl
        · exact .inr (.inr List.mem_cons_self)
  refine conforms_iff.mpr ⟨fun name hn => ?_, fun name d hd => ?_⟩
  · rcases keys name hn with hn | hn
    · exact declared name hn
    · exact mem_keys_argumentDefs.mp hn
  · exact settled (name, d) (Dict.mem_of_find? (find?_argumentDefs.mpr hd))

theorem validate_eq (tabled : f.arguments.keys.Nodup) (conforms : s.Conforms f values)
    (given : s.DefaultsGiven f values) :
    s.validate f values = .ok values := by
  obtain ⟨declared, settled⟩ := conforms_iff.mp ⟨conforms, given⟩
  refine validate_ok.mpr ⟨declared, foldlM_fixed fun e he => setArgument_eq ?_⟩
  have found := Dict.find?_of_mem (nodup_argumentDefs tabled) he
  exact settled e.1 e.2 (find?_argumentDefs.mp found)

/-- Validated arguments conform to their declarations and are validated to themselves, and so are all
conforming arguments that need no default. -/
theorem arguments_validated {f : Field} (built : s.Built) (hf : f ∈ s.fields) :
    (∀ values out, s.validate f.toFieldDef values = .ok out →
      s.Conforms f.toFieldDef out ∧ s.validate f.toFieldDef out = .ok out) ∧
      ∀ values, s.Conforms f.toFieldDef values → s.DefaultsGiven f.toFieldDef values →
        s.validate f.toFieldDef values = .ok values := by
  have tabled := built.nodup_arguments hf
  refine ⟨fun values out h => ?_, fun values => validate_eq tabled⟩
  obtain ⟨conforms, given⟩ := validate_settles tabled h
  exact ⟨conforms, validate_eq tabled conforms given⟩

end Schema

namespace Tickets

def pick : InputObject :=
  ⟨"Pick", [("id", .scalar .id true), ("tags", .list (.list (.scalar .int false) true) true)], true⟩

def tickets : FieldSpec where
  name := "tickets"
  ty := .json
  resolve := .constant .null
  arguments := [⟨"status", .enum "Status" true, some (.str "open"), none⟩,
    ⟨"by", .object "Pick" false, none, none⟩]

def recent : FieldSpec where
  name := "recent"
  ty := .json
  resolve := .constant .null
  arguments := [⟨"by", .list (.object "Pick" false) false, none, none⟩]
  inherit := some ("Query", "tickets")

def steps : List SchemaStep :=
  [.type "Query" none, .enum ⟨"Status", ["open", "closed"]⟩, .input pick, .field "Query" recent,
    .field "Query" tickets]

def builder : SchemaBuilder := ((SchemaBuilder.new "Query" none 0).run steps).2

def schema : Schema := okOf builder.build (by decide +kernel)

theorem built : schema.Built :=
  ⟨builder, .run (.new "Query" none 0) steps, eq_okOf _ _⟩

/-- The field that inherits. -/
def heir : Field := schema.fields.get ⟨0, by decide +kernel⟩

/-- Arguments with a single value where lists are expected, and without the status. -/
def given : Dict Json := [("by", .obj [("tags", .int 3)])]

def settled : Dict Json :=
  [("by", .arr [.obj [("tags", .arr [.arr [.int 3]])]]), ("status", .str "open")]

end Tickets

open Tickets in
theorem arguments_validated_tickets : schema.validate heir.toFieldDef given = .ok settled ∧
    schema.Conforms heir.toFieldDef settled ∧
      schema.validate heir.toFieldDef settled = .ok settled := by
  have validated : schema.validate heir.toFieldDef given = .ok settled := by rfl
  obtain ⟨sound, -⟩ := Schema.arguments_validated built (List.get_mem schema.fields _)
  exact ⟨validated, sound given settled validated⟩

end FieldPlan
