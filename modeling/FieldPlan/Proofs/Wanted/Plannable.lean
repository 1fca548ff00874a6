import FieldPlan.Proofs.Wanted.Shaped

/-!
# What can be planned

* `Wanted.Plannable` : lists can be arranged as their arguments ask for, and the services that are
  called are registered;
* `Wanted.Shaped.plannable_iff` : what is wanted can be planned if what the shape pass wants and what
  the service pass reads of its result can;
* `Wanted.Shaped.regular` : the service pass reads no list of the shape pass as an object;
* `Wanted.Readable.evaluated` : where members can be read, objects that need no service are there.
-/

namespace FieldPlan

section Plannable

variable (config : SchemaConfig) (registered : Option (ServiceName → Bool))

/-- A value can be arranged by fields of its items that need no service, and the service that it
comes from is registered. -/
structure Item.Plannable (item : Item) : Prop where
  arranged : ∃ a, item.arrangement = some a ∧ (a.order ≠ [] → ∃ element entity,
    item.ty.element? = some element ∧ element.entityName = some entity ∧
      ∀ key ∈ a.order, ∃ source, config.source? entity key.1 = some source ∧
        source.isService = false)
  registered : ∀ name method args, item.source = .service name method args →
    ∀ r, registered = some r → r name = true

mutual

/-- All that is wanted can be arranged, comes from registered services, and lists are lists. -/
def Wanted.Plannable : Wanted → Prop
  | .leaf item => item.Plannable config registered
  | .object item ws => item.Plannable config registered ∧ Wanted.PlannableAll ws
  | .list item ws => item.Plannable config registered ∧ item.ty.element?.isSome = true ∧
      Wanted.PlannableAll ws

def Wanted.PlannableAll : List Wanted → Prop
  | [] => True
  | w :: ws => Wanted.Plannable w ∧ Wanted.PlannableAll ws

end

variable {config registered}

theorem Wanted.plannableAll_iff {ws : List Wanted} :
    Wanted.PlannableAll config registered ws ↔ ∀ w ∈ ws, w.Plannable config registered := by
  induction ws with
  | nil => simp [Wanted.PlannableAll]
  | cons w ws ih => rw [Wanted.PlannableAll, ih, List.forall_mem_cons]

theorem Wanted.Plannable.item {w : Wanted} (h : w.Plannable config registered) :
    w.item.Plannable config registered := by
  cases w with
  | leaf item => exact h
  | object item ws | list item ws => exact h.1

/-- A value that is read from its owner's value as it is. -/
theorem Item.plannable_of_member {item : Item} {path : List String}
    (hs : item.source = .member path) (ha : item.arrangement = some {}) :
    item.Plannable config registered :=
  ⟨⟨{}, ha, fun h => absurd rfl h⟩, fun _ _ _ h => by cases hs.symm.trans h⟩

/-! ## Views -/

theorem Item.plannable_reread {item : Item} (hs : item.source.isService = true) (τ : Ty) :
    (item.reread τ).Plannable config registered ↔ item.Plannable config registered := by
  unfold reread
  generalize hsource : item.source = source at hs
  cases source with
  | service name method args =>
    simp only [Resolve.reread, Resolve.tyOver]
    constructor
    · rintro ⟨arranged, known⟩
      refine ⟨arranged, fun n m as h => ?_⟩
      cases hsource.symm.trans h
      exact known name method _ rfl
    · rintro ⟨arranged, known⟩
      refine ⟨arranged, fun n m as h => ?_⟩
      cases h
      exact known name method args hsource
  | _ => cases hs

theorem Item.view_absent {frame : Frame} (hchanged : frame.contextChanged = true)
    (hroot : frame.isRoot = false) {τ : Ty} {item : Item} (h : τ.member? item.name = none) :
    item.view frame τ = item.reread τ := by
  unfold view
  rw [if_pos hchanged, if_neg (by simp [hroot]), h]

theorem Item.view_present {frame : Frame} (hchanged : frame.contextChanged = true)
    (hroot : frame.isRoot = false) {τ u : Ty} {item : Item} (h : τ.member? item.name = some u) :
    item.view frame τ = item.taken u := by
  unfold view
  rw [if_pos hchanged, if_neg (by simp [hroot]), h]

theorem Resolve.tyOver_of_isService {source : Resolve} (h : source.isService = true) (τ t : Ty) :
    source.tyOver τ t = t := by
  cases source with
  | service name method args => rfl
  | _ => cases h

def Wanted.setItem (item : Item) : Wanted → Wanted
  | .leaf _ => .leaf item
  | .object _ ws => .object item ws
  | .list _ ws => .list item ws

/-- What is wanted of a value that comes from a service is read as it is. -/
theorem Wanted.withItem_reread {frame : Frame} (hroot : frame.isRoot = false) {w : Wanted}
    (sound : w.Sound) (hs : w.item.source.isService = true) (τ : Ty) :
    w.withItem frame (w.item.reread τ) = w.setItem (w.item.reread τ) := by
  have ty : (w.item.reread τ).ty = w.item.ty := Resolve.tyOver_of_isService hs τ w.item.ty
  cases w with
  | leaf item => rfl
  | object item ws =>
    obtain ⟨-, flat, -, all⟩ := sound
    rw [withItem, ty]
    exact congrArg (object _) (viewAll_flat hroot flat all)
  | list item ws =>
    obtain ⟨-, -, ⟨t, ht, flat⟩, all⟩ := sound
    have ht : (list item ws).item.ty.element? = some t := ht
    rw [withItem, ty, ht]
    exact congrArg (list _) (viewAll_flat hroot flat all)

theorem Wanted.plannable_setItem {w : Wanted} {item : Item} (ty : item.ty = w.item.ty)
    (h : item.Plannable config registered ↔ w.item.Plannable config registered) :
    (w.setItem item).Plannable config registered ↔ w.Plannable config registered := by
  cases w with
  | leaf _ => exact h
  | object _ ws => exact and_congr_left fun _ => h
  | list old ws =>
    have ty : item.ty = old.ty := ty
    rw [setItem, Wanted.Plannable, Wanted.Plannable, ty]
    exact and_congr_left fun _ => h

/-! ## Types of what the shape pass builds -/

/-- A type has the members that the shape pass wants. -/
def Ty.Has (τ : Ty) (shaped : List Wanted) : Prop :=
  ∀ name, τ.member? name = Dict.find? (Wanted.resultTys shaped) name

theorem Ty.Has.present {τ : Ty} {ws shaped : List Wanted} (h : τ.Has shaped)
    (accounts : Wanted.Accounts ws shaped) {x : Wanted} (hx : x ∈ shaped) :
    τ.member? x.name = some x.resultTy :=
  (h x.name).trans (Wanted.find?_resultTys accounts.nodup hx)

theorem Ty.Has.absent {τ : Ty} {shaped : List Wanted} (h : τ.Has shaped) {item : Item}
    (held : item.HeldBy shaped) : τ.member? item.name = none :=
  (h item.name).trans (Wanted.find?_resultTys_none held.absent)

theorem Wanted.has_object {item : Item} (flat : item.ty.Flat) (shaped : List Wanted) :
    (if shaped.isEmpty then leaf item else object item shaped).resultTy.Has shaped := by
  cases shaped with
  | nil => exact flat
  | cons x shaped => exact fun name => rfl

theorem Wanted.has_list {item : Item} {t : Ty} (ht : item.ty.element? = some t) (flat : t.Flat)
    (shaped : List Wanted) : ∃ u, (if shaped.isEmpty then leaf item
      else list item shaped).resultTy.element? = some u ∧ u.Has shaped := by
  cases shaped with
  | nil => exact ⟨t, ht, flat⟩
  | cons x shaped => exact ⟨_, rfl, fun name => rfl⟩

/-! ## Two passes -/

section Frame

variable {frame : Frame} (changed : frame.contextChanged = true) (below : frame.isRoot = false)

include changed below

/-- What is wanted of a field that is backed by a service, over a record that holds what it reads. -/
theorem Wanted.view_service {τ : Ty} {shaped : List Wanted} (has : τ.Has shaped) {w : Wanted}
    (sound : w.Sound) (hs : w.item.source.isService = true) (held : w.item.HeldBy shaped) :
    w.view frame τ = w.setItem (w.item.reread τ) := by
  rw [view_eq_withItem, Item.view_absent changed below (has.absent held),
    withItem_reread rfl sound hs]

/-- What is wanted of a field that the shape pass materialized. -/
theorem Wanted.view_shaped {τ : Ty} {ws shaped : List Wanted} (has : τ.Has shaped)
    (accounts : Accounts ws shaped) {w x : Wanted} (hx : x ∈ shaped) (h : w.Shaped x) :
    w.view frame τ = w.withItem frame.below (w.item.taken x.resultTy) := by
  have member : τ.member? w.item.name = some x.resultTy := by
    rw [← has.present accounts hx, h.name_eq]
    rfl
  rw [view_eq_withItem, Item.view_present changed below member]

/-- What is wanted in a value can be planned if both what the shape pass wants in its place and what
the service pass reads of the result can. -/
theorem Wanted.plannable_children {τ : Ty} {ws shaped : List Wanted} (has : τ.Has shaped)
    (accounts : Accounts ws shaped) (all : ShapedAll shaped ws) (sound : SoundAll ws)
    (each : ∀ w ∈ ws, ∀ x, w.Shaped x → (w.Plannable config registered ↔ x.Plannable config registered ∧
      (w.withItem frame.below (w.item.taken x.resultTy)).Plannable config registered)) :
    PlannableAll config registered ws ↔ PlannableAll config registered shaped ∧
      PlannableAll config registered (viewAll frame τ ws) := by
  obtain ⟨held, shapes⟩ := shapedAll_iff.mp all
  have service : ∀ w ∈ ws, w.item.source.isService = true →
      ((w.view frame τ).Plannable config registered ↔ w.Plannable config registered) := by
    intro w hw hs
    rw [view_service changed below has (soundAll_iff.mp sound w hw) hs (held w hw hs)]
    exact plannable_setItem (Resolve.tyOver_of_isService hs τ _) (Item.plannable_reread hs τ)
  rw [plannableAll_iff, plannableAll_iff, plannableAll_iff, viewAll_eq, List.forall_mem_map]
  constructor
  · refine fun h => ⟨fun x hx => ?_, fun w hw => ?_⟩
    · obtain ⟨w, hw, -, shape⟩ | ⟨w, -, -, path, -, field, rfl⟩ := accounts.cases all hx
      · exact ((each w hw x shape).mp (h w hw)).1
      · exact Item.plannable_of_member rfl rfl
    · cases hs : w.item.source.isService with
      | true => exact (service w hw hs).mpr (h w hw)
      | false =>
        obtain ⟨x, hx, shape⟩ := shapes w hw hs
        rw [view_shaped changed below has accounts hx shape]
        exact ((each w hw x shape).mp (h w hw)).2
  · rintro ⟨first, second⟩ w hw
    cases hs : w.item.source.isService with
    | true => exact (service w hw hs).mp (second w hw)
    | false =>
      obtain ⟨x, hx, shape⟩ := shapes w hw hs
      refine (each w hw x shape).mpr ⟨first x hx, ?_⟩
      rw [← view_shaped changed below has accounts hx shape]
      exact second w hw

end Frame

/-- What is wanted can be planned if both what the shape pass wants and what the service pass reads
of the result can. -/
theorem Wanted.Shaped.plannable_iff {w x : Wanted} (h : w.Shaped x) (sound : w.Sound) {frame : Frame}
    (changed : frame.contextChanged = true) (below : frame.isRoot = false) {item : Item}
    (plannable : item.Plannable config registered) (ty : item.ty = x.resultTy) :
    w.Plannable config registered ↔ x.Plannable config registered ∧
      (w.withItem frame item).Plannable config registered := by
  induction w using Wanted.induction generalizing x frame item with
  | leaf old =>
    cases h
    exact ⟨fun h => ⟨h, plannable⟩, fun h => h.1⟩
  | object old ws ih =>
    obtain ⟨shaped, all, accounts, rfl⟩ := h
    obtain ⟨-, flat, -, sounds⟩ := sound
    have later : frame.below.contextChanged = true := changed
    have children := plannable_children (τ := item.ty) changed below (ty ▸ has_object flat shaped)
      accounts all sounds fun w hw x shape =>
        ih w hw shape (soundAll_iff.mp sounds w hw) later rfl
          (Item.plannable_of_member rfl rfl) rfl
    rw [withItem, Wanted.Plannable, Wanted.Plannable, children]
    cases shaped with
    | nil =>
      show _ ↔ old.Plannable config registered ∧ _
      simp only [PlannableAll, plannable, true_and]
    | cons x shaped =>
      show _ ↔ (old.Plannable config registered ∧ _) ∧ _
      simp only [plannable, true_and, and_assoc]
  | list old ws ih =>
    obtain ⟨shaped, all, accounts, rfl⟩ := h
    obtain ⟨-, -, ⟨t, ht, flat⟩, sounds⟩ := sound
    obtain ⟨u, hu, has⟩ := has_list ht flat shaped
    rw [← ty] at hu
    have later : frame.below.contextChanged = true := changed
    have children := plannable_children (τ := u) changed below has accounts all sounds
      fun w hw x shape => ih w hw shape (soundAll_iff.mp sounds w hw) later rfl
        (Item.plannable_of_member rfl rfl) rfl
    rw [withItem, Wanted.Plannable, Wanted.Plannable, hu, ht, Option.getD_some, children]
    cases shaped with
    | nil =>
      show _ ↔ old.Plannable config registered ∧ _
      simp only [PlannableAll, plannable, Option.isSome_some, true_and]
    | cons x shaped =>
      show _ ↔ (old.Plannable config registered ∧ _ ∧ _) ∧ _
      simp only [plannable, ht, Option.isSome_some, true_and, and_assoc]

/-! ## Objects and lists -/

theorem Wanted.regular_setItem {w : Wanted} {item : Item} (ty : item.ty = w.item.ty)
    (h : w.Regular) : (w.setItem item).Regular := by
  cases w with
  | leaf old => trivial
  | object old ws =>
    have ty : item.ty = old.ty := ty
    rw [setItem, Wanted.Regular, ty]
    exact h
  | list old ws => exact h

theorem Wanted.regular_children {frame : Frame} (changed : frame.contextChanged = true)
    (below : frame.isRoot = false) {τ : Ty} {ws shaped : List Wanted} (has : τ.Has shaped)
    (accounts : Accounts ws shaped) (all : ShapedAll shaped ws) (sounds : SoundAll ws)
    (regulars : RegularAll ws) (each : ∀ w ∈ ws, ∀ x, w.Shaped x →
      (w.withItem frame.below (w.item.taken x.resultTy)).Regular) :
    RegularAll (viewAll frame τ ws) := by
  obtain ⟨held, shapes⟩ := shapedAll_iff.mp all
  rw [viewAll_eq, regularAll_iff, List.forall_mem_map]
  intro w hw
  cases hs : w.item.source.isService with
  | true =>
    rw [view_service changed below has (soundAll_iff.mp sounds w hw) hs (held w hw hs)]
    exact regular_setItem (Resolve.tyOver_of_isService hs τ _) (regularAll_iff.mp regulars w hw)
  | false =>
    obtain ⟨x, hx, shape⟩ := shapes w hw hs
    rw [view_shaped changed below has accounts hx shape]
    exact each w hw x shape

/-- The service pass reads no list as an object. -/
theorem Wanted.Shaped.regular {w x : Wanted} (h : w.Shaped x) (sound : w.Sound) (regular : w.Regular)
    {frame : Frame} (changed : frame.contextChanged = true) (below : frame.isRoot = false) {item : Item}
    (ty : item.ty = x.resultTy) : (w.withItem frame item).Regular := by
  induction w using Wanted.induction generalizing x frame item with
  | leaf old => trivial
  | object old ws ih =>
    obtain ⟨shaped, all, accounts, rfl⟩ := h
    obtain ⟨-, flat, -, sounds⟩ := sound
    obtain ⟨object, regulars⟩ := regular
    have later : frame.below.contextChanged = true := changed
    refine ⟨?_, regular_children (τ := item.ty) changed below (ty ▸ has_object flat shaped) accounts
      all sounds regulars fun w hw x shape => ih w hw shape (soundAll_iff.mp sounds w hw)
        (regularAll_iff.mp regulars w hw) later rfl rfl⟩
    cases shaped with
    | nil => exact (congrArg Ty.element? ty).trans object
    | cons x shaped => exact congrArg Ty.element? ty
  | list old ws ih =>
    obtain ⟨shaped, all, accounts, rfl⟩ := h
    obtain ⟨-, -, ⟨t, ht, flat⟩, sounds⟩ := sound
    obtain ⟨u, hu, has⟩ := has_list ht flat shaped
    rw [← ty] at hu
    have later : frame.below.contextChanged = true := changed
    rw [withItem, Wanted.Regular, hu, Option.getD_some]
    exact regular_children changed below has accounts all sounds regular fun w hw x shape =>
      ih w hw shape (soundAll_iff.mp sounds w hw) (regularAll_iff.mp regular w hw) later rfl rfl

/-! ## Objects that are there -/

theorem Item.called_of_plain {item : Item} (hs : item.source.isService = false) :
    item.called false = false := by
  unfold called
  split
  · rename_i h
    rw [h] at hs
    cases hs
  · rfl
  · rfl

theorem Item.isService_of_not_called {item : Item} {called : Bool} (h : item.called called = false) :
    item.source.isService = false := by
  unfold Item.called at h
  split at h
  · cases h
  · rename_i path hs
    rw [hs]
    rfl
  · rename_i hs _
    cases hsource : item.source with
    | service name method args => exact absurd hsource (hs name method args)
    | _ => rfl

/-- An object that can be planned is not arranged. -/
theorem Item.Plannable.arrangement {item : Item} (h : item.Plannable config registered)
    (object : item.ty.element? = none)
    (unsliced : ∀ a, item.arrangement = some a → a.order = [] → a = {}) :
    item.arrangement = some {} := by
  obtain ⟨a, ha, sorted⟩ := h.arranged
  have order : a.order = [] := by
    by_contra ho
    obtain ⟨t, -, ht, -⟩ := sorted ho
    cases object.symm.trans ht
  rw [ha, unsliced a ha order]

/-- Where members can be read, objects that need no service are there. -/
theorem Wanted.Readable.evaluated {answers : Answers} {w : Wanted} (sound : w.Sound)
    (regular : w.Regular) (plannable : w.Plannable config registered) {called : Bool} {v : Json}
    (h : w.Readable config answers called v) : w.Evaluated config answers called v := by
  induction w using Wanted.induction generalizing called v with
  | leaf item => trivial
  | object item ws ih =>
    obtain ⟨own, -, unsliced, sounds⟩ := sound
    obtain ⟨object, regulars⟩ := regular
    obtain ⟨item_plannable, plannables⟩ := plannable
    refine ⟨fun hguard => ?_, fun u hu hguard => evaluatedAll_iff.mpr fun w hw => ?_⟩
    · rw [Bool.or_eq_false_iff] at hguard
      rw [Item.value_of_plain (item_plannable.arrangement object unsliced)]
      exact h.1.isSome own.plain (Item.isService_of_not_called hguard.2) _
    · exact ih w hw (soundAll_iff.mp sounds w hw) (regularAll_iff.mp regulars w hw)
        (plannableAll_iff.mp plannables w hw) (readableAll_iff.mp (h.2 u hu hguard) w hw)
  | list item ws ih =>
    obtain ⟨-, -, -, sounds⟩ := sound
    obtain ⟨-, -, plannables⟩ := plannable
    refine fun items hitems u hu => evaluatedAll_iff.mpr fun w hw => ?_
    exact ih w hw (soundAll_iff.mp sounds w hw) (regularAll_iff.mp regular w hw)
      (plannableAll_iff.mp plannables w hw) (readableAll_iff.mp (h.2 items hitems u hu) w hw)

end Plannable

end FieldPlan
