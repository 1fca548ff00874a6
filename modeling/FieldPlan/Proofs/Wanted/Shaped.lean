import FieldPlan.Proofs.Wanted.Evaluated
import FieldPlan.Proofs.Wanted.Reread
import Mathlib.Data.List.Nodup

/-!
# What the shape pass wants

The shape pass materializes what needs no service: values of fields that are not backed by services,
and the parts of their owners that service calls read.

* `Wanted.resultTy` : the type of the record that a plan builds of what is wanted;
* `Wanted.Shaped` : what the shape pass wants of what both passes together want;
* `Wanted.Sound` : what holds of the types and sources of described fields;
* `Wanted.Readable` : members are read from objects and from null only, as they are where there is a
  value of all that is wanted (`Wanted.readable_of_value`).
-/

namespace FieldPlan

/-! ## Trees -/

/-- What holds of values, and of objects and lists if it holds of all that is wanted of them, holds of
all that is wanted. -/
@[elab_as_elim]
theorem Wanted.induction {P : Wanted → Prop} (leaf : ∀ item, P (.leaf item))
    (object : ∀ item ws, (∀ w ∈ ws, P w) → P (.object item ws))
    (list : ∀ item ws, (∀ w ∈ ws, P w) → P (.list item ws)) (w : Wanted) : P w :=
  @Wanted.rec P (fun ws => ∀ w ∈ ws, P w) leaf object list (by simp)
    (fun _ _ hw hws => List.forall_mem_cons.mpr ⟨hw, hws⟩) w

/-! ## Types of results -/

mutual

def Wanted.resultTy : Wanted → Ty
  | .leaf item => item.ty
  | .object item ws => .record item.name (Wanted.resultTys ws) item.ty.nullable
  | .list item ws => .list (.record item.name (Wanted.resultTys ws) false) item.ty.nullable

def Wanted.resultTys : List Wanted → List (String × Ty)
  | [] => []
  | w :: ws => (w.name, w.resultTy) :: Wanted.resultTys ws

end

theorem Wanted.resultTys_eq (ws : List Wanted) :
    Wanted.resultTys ws = ws.map fun w => (w.name, w.resultTy) := by
  induction ws with
  | nil => rfl
  | cons w ws ih => rw [Wanted.resultTys, ih, List.map_cons]

/-- The type of what is wanted under a name. -/
theorem Wanted.find?_resultTys {ws : List Wanted} (nodup : (ws.map (·.name)).Nodup) {w : Wanted}
    (hw : w ∈ ws) : Dict.find? (Wanted.resultTys ws) w.name = some w.resultTy := by
  rw [resultTys_eq]
  refine Dict.find?_of_mem ?_ (List.mem_map_of_mem hw)
  rwa [Dict.keys, List.map_map]

theorem Wanted.find?_resultTys_none {ws : List Wanted} {name : String}
    (h : ∀ w ∈ ws, w.name ≠ name) : Dict.find? (Wanted.resultTys ws) name = none := by
  rw [resultTys_eq, Dict.find?_eq_none, Dict.keys, List.map_map]
  intro hm
  obtain ⟨w, hw, he⟩ := List.mem_map.mp hm
  exact h w hw he

/-! ## Parts -/

/-- The paths of members that a source reads from the value of its owner. -/
def Resolve.paths : Resolve → List (List String)
  | .member path => [path]
  | .service _ _ args => args.filterMap ServiceArg.path?
  | _ => []

/-- The record of what is wanted holds what a service call reads, and nothing under the name of the
call. -/
structure Item.HeldBy (item : Item) (shaped : List Wanted) : Prop where
  absent : ∀ x ∈ shaped, x.name ≠ item.name
  parts : ∀ path ∈ item.source.paths, ∃ field, .leaf (.ofPart field path) ∈ shaped ∧
    extractedName field path = extractedName item.field path

/-- What the shape pass wants in the place of fields stands for one of the fields that need no service
or is a part of one of the others. -/
structure Wanted.Accounts (ws shaped : List Wanted) : Prop where
  nodup : (shaped.map (·.name)).Nodup
  known : ∀ x ∈ shaped, (∃ w ∈ ws, w.item.source.isService = false ∧ w.name = x.name) ∨
    ∃ w ∈ ws, w.item.source.isService = true ∧ ∃ path ∈ w.item.source.paths, ∃ field,
      x = .leaf (.ofPart field path)

mutual

/-- What the shape pass wants of a value that needs no service. A value of which it wants nothing is
wanted as it is. -/
def Wanted.Shaped : Wanted → Wanted → Prop
  | .leaf item, x => x = .leaf item
  | .object item ws, x => ∃ shaped, Wanted.ShapedAll shaped ws ∧ Wanted.Accounts ws shaped ∧
      x = if shaped.isEmpty then .leaf item else .object item shaped
  | .list item ws, x => ∃ shaped, Wanted.ShapedAll shaped ws ∧ Wanted.Accounts ws shaped ∧
      x = if shaped.isEmpty then .leaf item else .list item shaped

def Wanted.ShapedAll (shaped : List Wanted) : List Wanted → Prop
  | [] => True
  | w :: ws => (if w.item.source.isService then w.item.HeldBy shaped
      else ∃ x ∈ shaped, Wanted.Shaped w x) ∧ Wanted.ShapedAll shaped ws

end

theorem Wanted.shapedAll_iff {shaped ws : List Wanted} :
    Wanted.ShapedAll shaped ws ↔
      (∀ w ∈ ws, w.item.source.isService = true → w.item.HeldBy shaped) ∧
        ∀ w ∈ ws, w.item.source.isService = false → ∃ x ∈ shaped, w.Shaped x := by
  induction ws with
  | nil => simp [Wanted.ShapedAll]
  | cons w ws ih =>
    rw [Wanted.ShapedAll, ih]
    cases hs : w.item.source.isService <;> simp [hs, and_assoc, and_left_comm]

theorem Wanted.Shaped.name_eq {w x : Wanted} (h : w.Shaped x) : x.name = w.name := by
  cases w with
  | leaf item =>
    cases h
    rfl
  | object item ws | list item ws =>
    obtain ⟨shaped, -, -, rfl⟩ := h
    split <;> rfl

/-- What the shape pass wants in the place of fields stands for one of them or is a part. -/
theorem Wanted.Accounts.cases {ws shaped : List Wanted} (h : Wanted.Accounts ws shaped)
    (all : Wanted.ShapedAll shaped ws) {x : Wanted} (hx : x ∈ shaped) :
    (∃ w ∈ ws, w.item.source.isService = false ∧ w.Shaped x) ∨
      ∃ w ∈ ws, w.item.source.isService = true ∧ ∃ path ∈ w.item.source.paths, ∃ field,
        x = .leaf (.ofPart field path) := by
  refine (h.known x hx).imp_left ?_
  rintro ⟨w, hw, hs, hname⟩
  obtain ⟨y, hy, shaped⟩ := (Wanted.shapedAll_iff.mp all).2 w hw hs
  have same : y = x := List.inj_on_of_nodup_map h.nodup hy hx (shaped.name_eq.trans hname)
  exact ⟨w, hw, hs, same ▸ shaped⟩

/-! ## Described fields -/

/-- A source that a description can give, whose parts are all handed to the service pass. -/
structure Item.Sound (item : Item) : Prop where
  plain : item.source.Plain
  complete : item.source.isService = true →
    ∀ path ∈ item.source.paths, path ∈ item.source.partPaths item.field

mutual

/-- The sources and types of what is wanted are those of described fields, and no object is sliced. -/
def Wanted.Sound : Wanted → Prop
  | .leaf item => item.Sound
  | .object item ws => item.Sound ∧ item.ty.Flat ∧
      (∀ a, item.arrangement = some a → a.order = [] → a = {}) ∧ Wanted.SoundAll ws
  | .list item ws => item.Sound ∧ item.ty.Flat ∧
      (∃ t, item.ty.element? = some t ∧ t.Flat) ∧ Wanted.SoundAll ws

def Wanted.SoundAll : List Wanted → Prop
  | [] => True
  | w :: ws => Wanted.Sound w ∧ Wanted.SoundAll ws

end

theorem Wanted.soundAll_iff {ws : List Wanted} : Wanted.SoundAll ws ↔ ∀ w ∈ ws, w.Sound := by
  induction ws with
  | nil => simp [Wanted.SoundAll]
  | cons w ws ih => rw [Wanted.SoundAll, ih, List.forall_mem_cons]

theorem Wanted.Sound.item {w : Wanted} (h : w.Sound) : w.item.Sound := by
  cases w with
  | leaf item => exact h
  | object item ws | list item ws => exact h.1

/-! ## Views -/

theorem Wanted.viewAll_eq (frame : Frame) (τ : Ty) (ws : List Wanted) :
    Wanted.viewAll frame τ ws = ws.map (Wanted.view frame τ) := by
  induction ws with
  | nil => rfl
  | cons w ws ih => rw [Wanted.viewAll, ih, List.map_cons]

def Wanted.withItem (frame : Frame) (item : Item) : Wanted → Wanted
  | .leaf _ => .leaf item
  | .object _ ws => .object item (Wanted.viewAll frame item.ty ws)
  | .list _ ws => .list item (Wanted.viewAll frame (item.ty.element?.getD .json) ws)

theorem Wanted.view_eq_withItem (frame : Frame) (τ : Ty) (w : Wanted) :
    w.view frame τ = w.withItem frame.below (w.item.view frame τ) := by
  cases w <;> rfl

theorem Item.view_flat {frame : Frame} (hroot : frame.isRoot = false) {τ : Ty} (hτ : τ.Flat)
    {item : Item} (plain : item.source.Plain) : item.view frame τ = item := by
  unfold view
  split
  · rw [if_neg (by simp [hroot]), hτ item.name]
    have source : item.source.reread item.field τ = item.source :=
      Resolve.reread_flat hτ item.field item.source
    have ty : item.source.tyOver τ item.ty = item.ty := by
      generalize item.source = source at plain
      cases source with
      | member path => exact hτ.along item.ty plain
      | _ => rfl
    unfold reread
    rw [source, ty]
  · rfl

/-- Over a value whose type has no members, all that is wanted is read as it is. -/
theorem Wanted.view_flat {frame : Frame} (hroot : frame.isRoot = false) {τ : Ty} (hτ : τ.Flat)
    {w : Wanted} (sound : w.Sound) : w.view frame τ = w := by
  induction w using Wanted.induction generalizing frame τ with
  | leaf item => exact congrArg Wanted.leaf (Item.view_flat hroot hτ sound.plain)
  | object item ws ih =>
    obtain ⟨own, flat, -, all⟩ := sound
    rw [Wanted.view, Item.view_flat hroot hτ own.plain, viewAll_eq]
    refine congrArg (Wanted.object item) ((List.map_congr_left fun w hw => ?_).trans (List.map_id ws))
    exact ih w hw rfl flat (soundAll_iff.mp all w hw)
  | list item ws ih =>
    obtain ⟨own, -, ⟨t, ht, flat⟩, all⟩ := sound
    rw [Wanted.view, Item.view_flat hroot hτ own.plain, viewAll_eq, ht]
    refine congrArg (Wanted.list item) ((List.map_congr_left fun w hw => ?_).trans (List.map_id ws))
    exact ih w hw rfl flat (soundAll_iff.mp all w hw)

theorem Wanted.viewAll_flat {frame : Frame} (hroot : frame.isRoot = false) {τ : Ty} (hτ : τ.Flat)
    {ws : List Wanted} (sound : Wanted.SoundAll ws) : Wanted.viewAll frame τ ws = ws := by
  rw [viewAll_eq]
  exact (List.map_congr_left fun w hw => view_flat hroot hτ (soundAll_iff.mp sound w hw)).trans
    (List.map_id ws)

/-! ## Members that are read -/

/-- The members that a source reads from a value are read from objects and from null. -/
def Resolve.Readable (source : Resolve) (parent : Json) : Prop :=
  ∀ path ∈ source.paths, (parent.readPath path).isSome = true

section Values

variable (config : SchemaConfig) (answers : Answers)

mutual

/-- The members that are wanted or handed to services are read from objects and from null. -/
def Wanted.Readable (called : Bool) (parent : Json) : Wanted → Prop
  | .leaf item => item.source.Readable parent
  | .object item ws => item.source.Readable parent ∧
      ∀ v, item.value config answers parent = some v →
        (v.isNull && (item.ty.nullable || item.called called)) = false →
          Wanted.ReadableAll (item.called called) v ws
  | .list item ws => item.source.Readable parent ∧
      ∀ items, item.value config answers parent = some (.arr items) →
        ∀ v ∈ items, Wanted.ReadableAll false v ws

def Wanted.ReadableAll (called : Bool) (parent : Json) : List Wanted → Prop
  | [] => True
  | w :: ws => Wanted.Readable called parent w ∧ Wanted.ReadableAll called parent ws

end

variable {config answers}

theorem Wanted.readableAll_iff {called : Bool} {parent : Json} {ws : List Wanted} :
    Wanted.ReadableAll config answers called parent ws ↔
      ∀ w ∈ ws, w.Readable config answers called parent := by
  induction ws with
  | nil => simp [Wanted.ReadableAll]
  | cons w ws ih => rw [Wanted.ReadableAll, ih, List.forall_mem_cons]

theorem Wanted.Readable.source {called : Bool} {parent : Json} {w : Wanted}
    (h : w.Readable config answers called parent) : w.item.source.Readable parent := by
  cases w with
  | leaf item => exact h
  | object item ws | list item ws => exact h.1

theorem Item.value_of_plain {item : Item} (h : item.arrangement = some {}) (v : Json) :
    item.value config answers v = item.source.value answers item.arguments v := by
  unfold Item.value
  rw [h]
  exact Option.bind_fun_some _

/-- A value that comes from no service is there if members can be read. -/
theorem Resolve.Readable.isSome {source : Resolve} {parent : Json} (h : source.Readable parent)
    (plain : source.Plain) (hs : source.isService = false) (arguments : Dict Json) :
    (source.value answers arguments parent).isSome = true := by
  cases source with
  | member path => exact h path (List.mem_singleton.mpr rfl)
  | service name method args => cases hs
  | constant v => rfl
  | expr e => exact plain.elim

/-- The members are read of which the value of a field is made. -/
theorem Resolve.readable_of_value {arguments : Dict Json} {parent v : Json} {source : Resolve}
    (h : source.value answers arguments parent = some v) : source.Readable parent := by
  intro path hpath
  cases source with
  | member own =>
    cases List.mem_singleton.mp hpath
    exact Option.isSome_iff_exists.mpr ⟨v, h⟩
  | service name method args =>
    obtain ⟨arg, harg, hread⟩ := List.mem_filterMap.mp hpath
    obtain ⟨vs, hvs, -⟩ := Option.bind_eq_some_iff.mp h
    obtain ⟨u, hu⟩ := mapM_some_iff.mp ⟨vs, hvs⟩ arg harg
    cases arg with
    | member own =>
      cases hread
      exact Option.isSome_iff_exists.mpr ⟨u, hu⟩
    | argument _ | constant _ => cases hread
  | constant _ | expr _ => cases hpath

mutual

/-- Members are read from objects and from null where there is a value of all that is wanted. -/
theorem Wanted.readable_of_value {called : Bool} {parent r : Json} {w : Wanted}
    (h : w.value config answers called parent = some r) : w.Readable config answers called parent := by
  match w with
  | .leaf item =>
    obtain ⟨u, hu, -⟩ := Option.bind_eq_some_iff.mp h
    exact Resolve.readable_of_value hu
  | .object item children =>
    obtain ⟨u, hu, h⟩ := Option.bind_eq_some_iff.mp h
    obtain ⟨own, hown, -⟩ := Option.bind_eq_some_iff.mp hu
    refine ⟨Resolve.readable_of_value hown, fun v hv hguard => ?_⟩
    obtain rfl := Option.some.inj (hu.symm.trans hv)
    rw [if_neg (by simp [hguard])] at h
    obtain ⟨vs, hvs, -⟩ := Option.bind_eq_some_iff.mp h
    exact Wanted.readableAll_of_values hvs
  | .list item children =>
    obtain ⟨u, hu, h⟩ := Option.bind_eq_some_iff.mp h
    obtain ⟨own, hown, -⟩ := Option.bind_eq_some_iff.mp hu
    refine ⟨Resolve.readable_of_value hown, fun items hitems v hv => ?_⟩
    obtain rfl := Option.some.inj (hu.symm.trans hitems)
    obtain ⟨w, hw⟩ := Json.forItems_some h hv
    obtain ⟨vs, hvs, -⟩ := Option.map_eq_some_iff.mp hw
    exact Wanted.readableAll_of_values hvs

theorem Wanted.readableAll_of_values {called : Bool} {parent : Json} {ws : List Wanted}
    {vs : List (String × Json)} (h : Wanted.values config answers called parent ws = some vs) :
    Wanted.ReadableAll config answers called parent ws := by
  match ws with
  | [] => trivial
  | w :: ws =>
    obtain ⟨v, hv, h⟩ := Option.bind_eq_some_iff.mp h
    obtain ⟨vs, hvs, -⟩ := Option.bind_eq_some_iff.mp h
    exact ⟨Wanted.readable_of_value hv, Wanted.readableAll_of_values hvs⟩

end

end Values

end FieldPlan
