import FieldPlan.Proofs.StableSort
import FieldPlan.Proofs.Wanted.Plannable
import Mathlib.Data.List.Forall2

/-!
# Values that an observer cannot tell apart

An observer sees some of the fields of a schema. Two values that differ in members only that no such field
and no service call reads are the same to it.

* `SchemaConfig.Resembles`, `SchemaConfig.Indistinct` : two values of a type agree, through some steps and
  through any number of them, on what is read by fields that are seen and by service calls;
* `Indistinct.value` : the values of a field that is seen agree on such values of its owner;
* `Indistinct.arranged` : lists of such items stay so where they are arranged by fields that are seen.
-/

namespace FieldPlan

/-! ## Related results and lists -/

section Related

variable {α β γ δ : Type} {R : α → β → Prop} {S : γ → δ → Prop}

theorem rel_bind {x : Option α} {y : Option β} {f : α → Option γ} {g : β → Option δ}
    (h : Option.Rel R x y) (hfg : ∀ a b, R a b → Option.Rel S (f a) (g b)) :
    Option.Rel S (x >>= f) (y >>= g) := by
  cases h with
  | none => exact .none
  | some h => exact hfg _ _ h

theorem rel_imp {R' : α → β → Prop} (h : ∀ a b, R a b → R' a b) {x : Option α} {y : Option β}
    (hxy : Option.Rel R x y) : Option.Rel R' x y := by
  cases hxy with
  | none => exact .none
  | some hab => exact .some (h _ _ hab)

theorem rel_of_eq {R : α → α → Prop} (refl : ∀ a, R a a) {x y : Option α} (h : x = y) :
    Option.Rel R x y := by
  subst h
  cases x with
  | none => exact .none
  | some a => exact .some (refl a)

theorem eq_of_rel {x y : Option α} (h : Option.Rel Eq x y) : x = y := by
  cases h with
  | none => rfl
  | some h => rw [h]

/-- Maps of related items have related results. -/
theorem mapM_related {f : α → Option γ} {g : β → Option δ} {as : List α} {bs : List β}
    (h : List.Forall₂ R as bs) (hfg : ∀ a b, R a b → Option.Rel S (f a) (g b)) :
    Option.Rel (List.Forall₂ S) (as.mapM f) (bs.mapM g) := by
  induction h with
  | nil => exact .some .nil
  | cons first _ ih =>
    rw [List.mapM_cons, List.mapM_cons]
    exact rel_bind (hfg _ _ first) fun c d hcd => rel_bind ih fun cs ds hrest => .some (.cons hcd hrest)

/-- Sorts of related items by orders that agree on them are related. -/
theorem forall₂_stableSort {order : α → α → Ordering} {order' : β → β → Ordering}
    (same : ∀ a b, R a b → ∀ a' b', R a' b' → order a a' = order' b b') {as : List α} {bs : List β}
    (h : List.Forall₂ R as bs) : List.Forall₂ R (stableSort order as) (stableSort order' bs) := by
  obtain ⟨length, related⟩ := List.forall₂_iff_zip.mp h
  -- both are the sort of the pairs
  have first : stableSort order as =
      (stableSort (fun p q : α × β => order p.1 q.1) (as.zip bs)).map (·.1) := by
    rw [map_stableSort order, List.map_fst_zip (Nat.le_of_eq length)]
  have second : stableSort order' bs =
      (stableSort (fun p q : α × β => order p.1 q.1) (as.zip bs)).map (·.2) := by
    have agree : stableSort (fun p q : α × β => order p.1 q.1) (as.zip bs) =
        stableSort (fun p q => order' p.2 q.2) (as.zip bs) :=
      stableSort_congr fun p hp q hq => same p.1 p.2 (related hp) q.1 q.2 (related hq)
    rw [agree, map_stableSort order', List.map_snd_zip (Nat.le_of_eq length.symm)]
  rw [first, second, List.forall₂_map_left_iff, List.forall₂_map_right_iff, List.forall₂_same]
  exact fun p hp => related (List.mem_mergeSort.mp hp)

end Related

/-! ## Sort keys -/

/-- Two values stand in the same place among sort keys: they are equal, or two lists, or two objects. -/
def Json.Ties (v v' : Json) : Prop := v = v' ∨ 4 ≤ v.rank ∧ v.rank = v'.rank

theorem Json.sortOrder_of_rank {v u : Json} (h : 4 ≤ v.rank ∨ 4 ≤ u.rank) :
    v.sortOrder u = compare v.rank u.rank := by
  cases v <;> cases u <;> simp [sortOrder, rank] at h ⊢

theorem Json.Ties.sortOrder {v v' u u' : Json} (hv : v.Ties v') (hu : u.Ties u') :
    v.sortOrder u = v'.sortOrder u' := by
  rcases hv with rfl | ⟨high, rank⟩
  · rcases hu with rfl | ⟨high, rank⟩
    · rfl
    · rw [sortOrder_of_rank (.inr high), sortOrder_of_rank (.inr (rank ▸ high)), rank]
  · have rank' : u.rank = u'.rank := hu.elim (congrArg Json.rank) (·.2)
    rw [sortOrder_of_rank (.inl high), sortOrder_of_rank (.inl (rank ▸ high)), rank, rank']

theorem Json.Ties.order {v v' u u' : Json} (hv : v.Ties v') (hu : u.Ties u') (d : Direction) :
    d.order v u = d.order v' u' := by
  cases d with
  | ascending => exact hv.sortOrder hu
  | descending => exact hu.sortOrder hv

theorem keyOrder_ties {directions : List Direction} {as as' bs bs' : List Json}
    (ha : List.Forall₂ Json.Ties as as') (hb : List.Forall₂ Json.Ties bs bs') :
    keyOrder directions as bs = keyOrder directions as' bs' := by
  induction directions generalizing as as' bs bs' with
  | nil => rfl
  | cons d directions ih =>
    cases ha with
    | nil => rfl
    | cons first rest =>
      cases hb with
      | nil => rfl
      | cons first' rest' =>
        rw [keyOrder, keyOrder, first.order first' d, ih rest rest']

/-! ## Values that agree -/

variable {config : SchemaConfig} {schema : Schema} {seen : Field → Bool} {answers : Answers}

/-- Two values of a type agree through `depth` steps into them: they are equal, or two objects on which
the fields that are seen read members that agree and service calls read equal ones, or two lists of items
that agree. -/
def SchemaConfig.Resembles (config : SchemaConfig) (schema : Schema) (seen : Field → Bool) :
    Nat → Ty → Json → Json → Prop
  | 0, _, _, _ => True
  | depth + 1, t, v, v' => v = v' ∨
    match t with
    | .entity name _ => (∃ members members', v = .obj members ∧ v' = .obj members') ∧
      ∀ f ∈ schema.fields, f.owner = name → ∀ source, config.source? f.owner f.name = some source →
        (∀ path, source = .member path → seen f = true →
          Option.Rel (Resembles config schema seen depth f.ty) (v.readPath path) (v'.readPath path)) ∧
        (source.isService = true → ∀ path ∈ source.paths, v.readPath path = v'.readPath path)
    | .list element _ => ∃ items items', v = .arr items ∧ v' = .arr items' ∧
      List.Forall₂ (Resembles config schema seen depth element) items items'
    | _ => False

/-- Two values of a type agree. -/
def SchemaConfig.Indistinct (config : SchemaConfig) (schema : Schema) (seen : Field → Bool) (t : Ty)
    (v v' : Json) : Prop :=
  ∀ depth, config.Resembles schema seen depth t v v'

namespace SchemaConfig.Indistinct

variable {t : Ty} {v v' : Json} {name : String} {nullable : Bool}

theorem refl (t : Ty) (v : Json) : config.Indistinct schema seen t v v := by
  intro depth
  cases depth with
  | zero => trivial
  | succ depth => exact .inl rfl

/-- What is related through any number of steps, where there are values. -/
theorem rel_of_depths {x y : Option Json}
    (h : ∀ depth, Option.Rel (config.Resembles schema seen depth t) x y) :
    Option.Rel (config.Indistinct schema seen t) x y := by
  cases x with
  | none =>
    cases h 0
    exact .none
  | some v =>
    cases y with
    | none => cases h 0
    | some v' =>
      refine .some fun depth => ?_
      cases h depth with
      | some h => exact h

/-- Objects of an entity that agree are equal, or their fields read members that agree. -/
theorem field (h : config.Indistinct schema seen (.entity name nullable) v v') (hne : v ≠ v') {f : Field}
    (hf : f ∈ schema.fields) (owner : f.owner = name) {source : Resolve}
    (hs : config.source? f.owner f.name = some source) :
    (∀ path, source = .member path → seen f = true →
      Option.Rel (config.Indistinct schema seen f.ty) (v.readPath path) (v'.readPath path)) ∧
    (source.isService = true → ∀ path ∈ source.paths, v.readPath path = v'.readPath path) := by
  have inside := fun depth => ((h (depth + 1)).resolve_left hne).2 f hf owner source hs
  exact ⟨fun path member hseen => rel_of_depths fun depth => (inside depth).1 path member hseen,
    (inside 0).2⟩

/-- Lists that agree are equal or have items that agree. -/
theorem items {element : Ty} (h : config.Indistinct schema seen (.list element nullable) v v') :
    v = v' ∨ ∃ items items', v = .arr items ∧ v' = .arr items' ∧
      List.Forall₂ (config.Indistinct schema seen element) items items' := by
  refine or_iff_not_imp_left.mpr fun hne => ?_
  obtain ⟨items, items', rfl, rfl, first⟩ := (h 1).resolve_left hne
  refine ⟨items, items', rfl, rfl, List.forall₂_iff_get.mpr ⟨first.length_eq, ?_⟩⟩
  intro i hi hi' depth
  obtain ⟨_, _, same, same', all⟩ := (h (depth + 1)).resolve_left hne
  cases same
  cases same'
  exact all.get hi hi'

theorem arr {element : Ty} {items items' : List Json}
    (h : List.Forall₂ (config.Indistinct schema seen element) items items') :
    config.Indistinct schema seen (.list element nullable) (.arr items) (.arr items') := by
  intro depth
  cases depth with
  | zero => trivial
  | succ depth => exact .inr ⟨items, items', rfl, rfl, h.imp fun _ _ h => h depth⟩

/-- Values of a type without entities agree just if they are equal. -/
theorem eq_of_scalar {t : Ty} {v v' : Json} (ht : t.entityName = none)
    (h : config.Indistinct schema seen t v v') : v = v' := by
  match t with
  | .entity _ _ => cases ht
  | .list element _ =>
    obtain same | ⟨items, items', rfl, rfl, all⟩ := h.items
    · exact same
    · have equal : items = items' := List.forall₂_eq_eq_eq ▸ all.imp fun _ _ => eq_of_scalar (t := element) ht
      rw [equal]
  | .scalar _ _ | .record _ _ _ | .service _ _ => exact (h 1).resolve_right id

/-- Values that agree stand in the same place among sort keys. -/
theorem ties (h : config.Indistinct schema seen t v v') : v.Ties v' := by
  obtain same | h := h 1
  · exact .inl same
  · match t with
    | .entity _ _ =>
      obtain ⟨⟨members, members', rfl, rfl⟩, -⟩ := h
      exact .inr ⟨Nat.le_succ 4, rfl⟩
    | .list _ _ =>
      obtain ⟨items, items', rfl, rfl, -⟩ := h
      exact .inr ⟨Nat.le_refl 4, rfl⟩
    | .scalar _ _ | .record _ _ _ | .service _ _ => exact h.elim

theorem isNull_eq (h : config.Indistinct schema seen t v v') : v.isNull = v'.isNull := by
  obtain rfl | ⟨high, rank⟩ := h.ties
  · rfl
  · cases v <;> cases v' <;> simp [Json.rank, Json.isNull] at high rank ⊢

/-! ## Fields -/

/-- The values of a field that is seen agree on values of its owner that agree. -/
theorem value (answers : Answers) (h : config.Indistinct schema seen (.entity name nullable) v v')
    {f : Field} (hf : f ∈ schema.fields) (owner : f.owner = name) {source : Resolve}
    (hs : config.source? f.owner f.name = some source) (sees : seen f = true) (arguments : Dict Json) :
    Option.Rel (config.Indistinct schema seen f.ty) (source.value answers arguments v)
      (source.value answers arguments v') := by
  by_cases same : v = v'
  · exact rel_of_eq (refl f.ty) (by rw [same])
  · obtain ⟨members, calls⟩ := h.field same hf owner hs
    cases source with
    | member path => exact members path rfl sees
    | service service method args =>
      have given : args.mapM (·.value arguments v) = args.mapM (·.value arguments v') := by
        refine mapM_congr fun a ha => ?_
        cases a with
        | member path => exact calls rfl path (List.mem_filterMap.mpr ⟨.member path, ha, rfl⟩)
        | argument _ | constant _ => rfl
      refine rel_of_eq (refl f.ty) ?_
      rw [Resolve.value, Resolve.value, given]
    | constant u => exact .some (refl f.ty u)
    | expr e => exact .none

/-! ## Arrangements -/

/-- Some of the items of lists that agree. -/
theorem mapItems {element : Ty} (h : config.Indistinct schema seen (.list element nullable) v v')
    {g : List Json → List Json} (hg : ∀ items items',
      List.Forall₂ (config.Indistinct schema seen element) items items' →
        List.Forall₂ (config.Indistinct schema seen element) (g items) (g items')) :
    Option.Rel (config.Indistinct schema seen (.list element nullable)) (v.mapItems g)
      (v'.mapItems g) := by
  obtain rfl | ⟨items, items', rfl, rfl, all⟩ := h.items
  · exact rel_of_eq (refl _) rfl
  · exact .some (arr (hg items items' all))

theorem skipItems {element : Ty} (h : config.Indistinct schema seen (.list element nullable) v v')
    (skip : Option Nat) :
    Option.Rel (config.Indistinct schema seen (.list element nullable)) (v.skipItems skip)
      (v'.skipItems skip) := by
  match skip with
  | none | some 0 => exact .some h
  | some (n + 1) => exact h.mapItems fun _ _ all => List.forall₂_drop (n + 1) all

theorem takeItems {element : Ty} (h : config.Indistinct schema seen (.list element nullable) v v')
    (take : Option Nat) :
    Option.Rel (config.Indistinct schema seen (.list element nullable)) (v.takeItems take)
      (v'.takeItems take) := by
  match take with
  | none => exact .some h
  | some n => exact h.mapItems fun _ _ all => List.forall₂_take n all

/-- Items that agree, with values of sort keys that stand in the same places. -/
def Rows (config : SchemaConfig) (schema : Schema) (seen : Field → Bool) (element : Ty)
    (a a' : List Json × Json) : Prop :=
  List.Forall₂ Json.Ties a.1 a'.1 ∧ config.Indistinct schema seen element a.2 a'.2

/-- Lists that agree still do when they are sorted by keys whose values agree on their items. -/
theorem sortBy {element : Ty} (h : config.Indistinct schema seen (.list element nullable) v v')
    {keys : List ItemKey} (hkeys : ∀ u u', config.Indistinct schema seen element u u' →
      ∀ key ∈ keys, Option.Rel Json.Ties (key.value u) (key.value u')) :
    Option.Rel (config.Indistinct schema seen (.list element nullable)) (v.sortBy keys)
      (v'.sortBy keys) := by
  obtain rfl | ⟨items, items', rfl, rfl, all⟩ := h.items
  · exact rel_of_eq (refl _) rfl
  · have rows : Option.Rel (List.Forall₂ (Rows config schema seen element))
        (items.mapM fun item => do
          let values ← keys.mapM fun key => key.value item
          pure (values, item))
        (items'.mapM fun item => do
          let values ← keys.mapM fun key => key.value item
          pure (values, item)) := by
      refine mapM_related all fun u u' hu => ?_
      have values := mapM_related (f := fun key => key.value u) (g := fun key => key.value u')
        (R := fun key key' => key = key' ∧ key ∈ keys) (S := Json.Ties)
        (List.forall₂_same.mpr fun key hkey => ⟨rfl, hkey⟩) ?_
      · exact rel_bind values fun row row' hrow => .some ⟨hrow, hu⟩
      · rintro key _ ⟨rfl, hkey⟩
        exact hkeys u u' hu key hkey
    refine rel_bind rows fun keyed keyed' related => .some (arr ?_)
    have same : ∀ a a', Rows config schema seen element a a' → ∀ b b',
        Rows config schema seen element b b' → keyOrder (keys.map (·.direction)) a.1 b.1 =
          keyOrder (keys.map (·.direction)) a'.1 b'.1 :=
      fun a a' ha b b' hb => keyOrder_ties ha.1 hb.1
    have sorted := forall₂_stableSort same related
    rw [sortKeyed, sortKeyed, List.forall₂_map_left_iff, List.forall₂_map_right_iff]
    exact sorted.imp fun a a' ha => ha.2

/-- Lists of an entity that agree still do when they are arranged by fields that are seen. -/
theorem arranged (built : config.build = .ok schema) {inner : Bool}
    (h : config.Indistinct schema seen (.list (.entity name inner) nullable) v v') {a : Arrangement}
    (sees : ∀ key ∈ a.order, ∀ f ∈ schema.fields, f.owner = name → f.name = key.1 → seen f = true) :
    Option.Rel (config.Indistinct schema seen (.list (.entity name inner) nullable))
      (a.value config answers (some name) v) (a.value config answers (some name) v') := by
  have sorted : Option.Rel (config.Indistinct schema seen (.list (.entity name inner) nullable))
      (v.sortByFields config answers (some name) a.order)
      (v'.sortByFields config answers (some name) a.order) := by
    unfold Json.sortByFields
    split
    · exact .some h
    · show Option.Rel _ (Option.bind (a.order.mapM _) _) (Option.bind (a.order.mapM _) _)
      cases hkeys : a.order.mapM (config.itemKey answers name) with
      | none => exact .none
      | some keys =>
        refine h.sortBy fun u u' hu key hkey => ?_
        obtain ⟨named, hnamed, made⟩ := mem_of_mapM hkeys hkey
        obtain ⟨source, hs, rfl⟩ := Option.map_eq_some_iff.mp made
        obtain ⟨f, fc, -, hf, owner, field, traits⟩ := exists_field built hs
        have values := hu.value answers hf owner traits.source? (sees named hnamed f hf owner field) []
        exact rel_imp (fun _ _ h => h.ties) values
  refine rel_bind sorted fun w w' hw => ?_
  exact rel_bind (hw.skipItems a.skip) fun x x' hx => hx.takeItems a.take

end SchemaConfig.Indistinct

end FieldPlan
