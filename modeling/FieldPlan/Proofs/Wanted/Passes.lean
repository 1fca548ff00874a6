import FieldPlan.Proofs.Wanted.Plannable

/-!
# Values in two passes

What is wanted has the same value whether it is read at once or in two passes, the second one over
the record that the first one built.

* `Wanted.Shaped.value` : the shape pass has a value where all that is wanted has one;
* `Wanted.Shaped.rereads` : what the service pass reads of the value of the shape pass has the value of
  all that is wanted;
* `Wanted.Shaped.root_value` : so it has for a root field.
-/

namespace FieldPlan

variable {config : SchemaConfig} {answers : Answers} {registered : Option (ServiceName → Bool)}

/-! ## Values of records -/

theorem Wanted.values_some_iff {called : Bool} {v : Json} {ws : List Wanted} :
    (∃ vs, Wanted.values config answers called v ws = some vs) ↔
      ∀ w ∈ ws, ∃ r, w.value config answers called v = some r := by
  induction ws with
  | nil => simp [Wanted.values]
  | cons w ws ih =>
    rw [List.forall_mem_cons, ← ih, Wanted.values]
    constructor
    · rintro ⟨vs, h⟩
      obtain ⟨r, hr, h⟩ := Option.bind_eq_some_iff.mp h
      obtain ⟨rs, hrs, -⟩ := Option.bind_eq_some_iff.mp h
      exact ⟨⟨r, hr⟩, rs, hrs⟩
    · rintro ⟨⟨r, hr⟩, rs, hrs⟩
      exact ⟨(w.name, r) :: rs, by rw [hr, hrs]; rfl⟩

theorem Wanted.keys_of_values {called : Bool} {v : Json} {ws : List Wanted}
    {vs : List (String × Json)} (h : Wanted.values config answers called v ws = some vs) :
    Dict.keys vs = ws.map (·.name) := by
  induction ws generalizing vs with
  | nil =>
    cases h
    rfl
  | cons w ws ih =>
    obtain ⟨r, -, h⟩ := Option.bind_eq_some_iff.mp h
    obtain ⟨rs, hrs, h⟩ := Option.bind_eq_some_iff.mp h
    cases h
    exact congrArg (w.name :: ·) (ih hrs)

/-- The value of what is wanted under a name. -/
theorem Wanted.find?_values {called : Bool} {v : Json} {ws : List Wanted} {vs : List (String × Json)}
    (h : Wanted.values config answers called v ws = some vs) (nodup : (ws.map (·.name)).Nodup)
    {w : Wanted} (hw : w ∈ ws) : Dict.find? vs w.name = w.value config answers called v := by
  obtain ⟨r, hr⟩ := Wanted.values_some_iff.mp ⟨vs, h⟩ w hw
  rw [hr]
  refine Dict.find?_of_mem (keys_of_values h ▸ nodup) ?_
  clear nodup
  induction ws generalizing vs with
  | nil => cases hw
  | cons first ws ih =>
    obtain ⟨s, hs, h⟩ := Option.bind_eq_some_iff.mp h
    obtain ⟨rs, hrs, h⟩ := Option.bind_eq_some_iff.mp h
    cases h
    rcases List.mem_cons.mp hw with rfl | hw
    · cases hs.symm.trans hr
      exact List.mem_cons_self
    · exact List.mem_cons_of_mem _ (ih hrs hw)

theorem Wanted.values_map {f : Wanted → Wanted} {called called' : Bool} {v v' : Json}
    {ws : List Wanted} (h : ∀ w ∈ ws, (f w).name = w.name ∧
      (f w).value config answers called' v' = w.value config answers called v) :
    Wanted.values config answers called' v' (ws.map f) =
      Wanted.values config answers called v ws := by
  induction ws with
  | nil => rfl
  | cons w ws ih =>
    obtain ⟨⟨hname, hw⟩, hws⟩ := List.forall_mem_cons.mp h
    rw [List.map_cons, Wanted.values, Wanted.values, hname, hw, ih hws]

/-! ## Values in another place -/

section SetItem

variable {w : Wanted} {item : Item} {called called' : Bool} {v v' : Json}
  (value : item.value config answers v' = w.item.value config answers v)
  (ty : item.ty = w.item.ty) (calls : item.called called' = w.item.called called)

include value ty calls

/-- A value in the place of an equal one. -/
theorem Wanted.value_setItem :
    (w.setItem item).value config answers called' v' = w.value config answers called v := by
  cases w with
  | leaf old => exact value
  | object old ws =>
    rw [setItem, Wanted.value, Wanted.value, value, ty, calls]
    rfl
  | list old ws =>
    rw [setItem, Wanted.value, Wanted.value, value]
    rfl

theorem Wanted.evaluated_setItem (h : w.Evaluated config answers called v) :
    (w.setItem item).Evaluated config answers called' v' := by
  cases w with
  | leaf old => trivial
  | object old ws =>
    rw [setItem, Wanted.Evaluated, value, ty, calls]
    exact h
  | list old ws =>
    rw [setItem, Wanted.Evaluated, value]
    exact h

end SetItem

/-! ## The shape pass -/

/-- Where all that is wanted in a value has a value, all that the shape pass wants of it has one. -/
theorem Wanted.shaped_children {ws shaped : List Wanted} (accounts : Accounts ws shaped)
    (all : ShapedAll shaped ws) {u : Json} (readable : ReadableAll config answers false u ws)
    (evaluated : EvaluatedAll config answers false u ws)
    (each : ∀ w ∈ ws, w.item.source.isService = false → ∀ x, w.Shaped x →
      w.Evaluated config answers false u → w.Readable config answers false u →
        x.Evaluated config answers false u ∧ ∀ r, w.value config answers false u = some r →
          ∃ r', x.value config answers false u = some r') :
    EvaluatedAll config answers false u shaped ∧
      ∀ vs, values config answers false u ws = some vs →
        ∃ fields, values config answers false u shaped = some fields := by
  rw [evaluatedAll_iff] at evaluated ⊢
  rw [readableAll_iff] at readable
  refine ⟨fun x hx => ?_, fun vs hvs => values_some_iff.mpr fun x hx => ?_⟩
  · obtain ⟨w, hw, hs, shape⟩ | ⟨w, -, -, path, -, field, rfl⟩ := accounts.cases all hx
    · exact (each w hw hs x shape (evaluated w hw) (readable w hw)).1
    · trivial
  · obtain ⟨w, hw, hs, shape⟩ | ⟨w, hw, -, path, hpath, field, rfl⟩ := accounts.cases all hx
    · obtain ⟨r, hr⟩ := values_some_iff.mp ⟨vs, hvs⟩ w hw
      exact (each w hw hs x shape (evaluated w hw) (readable w hw)).2 r hr
    · obtain ⟨r, hr⟩ := Option.isSome_iff_exists.mp ((readable w hw).source path hpath)
      exact ⟨r, (Item.value_of_plain rfl u).trans hr⟩

/-- The shape pass has a value where all that is wanted has one. -/
theorem Wanted.Shaped.value {w x : Wanted} (h : w.Shaped x) (hs : w.item.source.isService = false)
    {v : Json} (evaluated : w.Evaluated config answers false v)
    (readable : w.Readable config answers false v) :
    x.Evaluated config answers false v ∧ ∀ r, w.value config answers false v = some r →
      ∃ r', x.value config answers false v = some r' := by
  induction w using Wanted.induction generalizing x v with
  | leaf item =>
    cases h
    exact ⟨trivial, fun r hr => ⟨r, hr⟩⟩
  | object item ws ih =>
    obtain ⟨shaped, all, accounts, rfl⟩ := h
    have uncalled : item.called false = false := Item.called_of_plain hs
    obtain ⟨there, inside⟩ := evaluated
    have inner := readable.2
    rw [uncalled] at there inside inner
    have children := fun u hu hguard => shaped_children accounts all (inner u hu hguard)
      (inside u hu hguard) fun w hw hs x shape => ih w hw shape hs
    cases shaped with
    | nil =>
      refine ⟨trivial, fun r hr => ?_⟩
      obtain ⟨u, hu, -⟩ := Option.bind_eq_some_iff.mp hr
      exact ⟨u, hu⟩
    | cons x shaped =>
      rw [List.isEmpty_cons, if_neg Bool.false_ne_true]
      refine ⟨?_, fun r hr => ?_⟩
      · rw [Wanted.Evaluated, uncalled]
        exact ⟨there, fun u hu hguard => (children u hu hguard).1⟩
      · rw [Wanted.value, uncalled] at hr ⊢
        obtain ⟨u, hu, hr⟩ := Option.bind_eq_some_iff.mp hr
        rw [hu, Option.bind_eq_bind, Option.bind_some]
        split at hr
        · rw [if_pos ‹_›]
          exact ⟨.null, rfl⟩
        · rename_i hguard
          rw [if_neg hguard]
          obtain ⟨vs, hvs, -⟩ := Option.bind_eq_some_iff.mp hr
          obtain ⟨fields, hfields⟩ := (children u hu (by simpa using hguard)).2 vs hvs
          exact ⟨.obj fields, by rw [hfields]; rfl⟩
  | list item ws ih =>
    obtain ⟨shaped, all, accounts, rfl⟩ := h
    have children := fun items hitems u hu => shaped_children accounts all
      (readable.2 items hitems u hu) (evaluated items hitems u hu) fun w hw hs x shape =>
        ih w hw shape hs
    cases shaped with
    | nil =>
      refine ⟨trivial, fun r hr => ?_⟩
      obtain ⟨u, hu, -⟩ := Option.bind_eq_some_iff.mp hr
      exact ⟨u, hu⟩
    | cons x shaped =>
      rw [List.isEmpty_cons, if_neg Bool.false_ne_true]
      refine ⟨fun items hitems u hu => (children items hitems u hu).1, fun r hr => ?_⟩
      rw [Wanted.value] at hr ⊢
      obtain ⟨u, hu, hr⟩ := Option.bind_eq_some_iff.mp hr
      rw [hu, Option.bind_eq_bind, Option.bind_some]
      cases u with
      | null => exact ⟨.null, rfl⟩
      | arr items =>
        obtain ⟨rs, hrs⟩ : ∃ rs, items.mapM (fun v =>
            (values config answers false v (x :: shaped)).map Json.obj) = some rs := by
          refine mapM_some_iff.mpr fun u hmem => ?_
          obtain ⟨y, hy⟩ := Json.forItems_some hr hmem
          obtain ⟨vs, hvs, -⟩ := Option.map_eq_some_iff.mp hy
          obtain ⟨fields, hfields⟩ := (children items hu u hmem).2 vs hvs
          exact ⟨.obj fields, by rw [hfields]; rfl⟩
        exact ⟨.arr rs, by rw [Json.forItems, hrs]; rfl⟩
      | _ => cases hr

/-! ## The service pass -/

theorem Json.readPath_singleton (name : String) (v : Json) : v.readPath [name] = v.readMember name := by
  simp [readPath]

theorem rereadPath_known {known : List String → Option String} {path : List String} {part : String}
    (h : known path = some part) (hp : path ≠ []) : rereadPath known path = [part] := by
  unfold rereadPath
  cases hr : path.reverse with
  | nil => exact absurd (List.reverse_eq_nil_iff.mp hr) hp
  | cons name before =>
    have back : before.reverse ++ [name] = path := by
      rw [← List.reverse_cons, ← hr, List.reverse_reverse]
    rw [rereadReversed, back, h]

/-- A service call reads from the record of the shape pass what it reads from the owner's value. -/
theorem Item.value_reread {item : Item} (sound : item.Sound) (hs : item.source.isService = true)
    {ws shaped : List Wanted} (accounts : Wanted.Accounts ws shaped) (held : item.HeldBy shaped)
    {τ : Ty} (has : τ.Has shaped) {u : Json} {fields : List (String × Json)}
    (hfields : Wanted.values config answers false u shaped = some fields)
    (readable : item.source.Readable u) :
    (item.reread τ).value config answers (.obj fields) = item.value config answers u := by
  have source : (item.source.reread item.field τ).value answers item.arguments (.obj fields) =
      item.source.value answers item.arguments u := by
    have complete := sound.complete hs
    have plain := sound.plain
    have parts := held.parts
    generalize item.source = source at hs complete plain parts readable
    cases source with
    | service name method args =>
      have each : (args.map (·.reread (knownPart item.field
          ((Resolve.service name method args).partPaths item.field) τ))).mapM
            (·.value item.arguments (.obj fields)) = args.mapM (·.value item.arguments u) := by
        rw [List.mapM_map]
        refine mapM_congr fun a ha => ?_
        cases a with
        | member path =>
          have hpath : path ∈ (Resolve.service name method args).paths :=
            List.mem_filterMap.mpr ⟨_, ha, rfl⟩
          obtain ⟨field, hmem, hname⟩ := parts path hpath
          have present := has.present accounts hmem
          have value := Wanted.find?_values hfields accounts.nodup hmem
          change Ty.member? τ (extractedName field path) = _ at present
          change Dict.find? fields (extractedName field path) = _ at value
          rw [hname] at present value
          have known : knownPart item.field
              ((Resolve.service name method args).partPaths item.field) τ path =
                some (extractedName item.field path) :=
            if_pos ⟨complete path hpath, by rw [present]; rfl⟩
          obtain ⟨y, hy⟩ := Option.isSome_iff_exists.mp (readable path hpath)
          have part : (Wanted.leaf (.ofPart field path)).value config answers false u = some y :=
            (Item.value_of_plain rfl u).trans hy
          show Json.readPath (rereadPath _ path) (.obj fields) = u.readPath path
          rw [rereadPath_known known (plain _ ha), Json.readPath_singleton, Json.readMember, value,
            part, hy, Option.getD_some]
        | argument n => rfl
        | constant v => rfl
      show Option.bind (List.mapM _ (List.map _ args)) _ = Option.bind _ _
      rw [each]
    | _ => cases hs
  have entity : (item.reread τ).ty = item.ty := Resolve.tyOver_of_isService hs τ item.ty
  unfold Item.value
  rw [entity]
  show (item.source.reread item.field τ).value answers item.arguments (.obj fields) >>= _ = _
  rw [source]
  rfl

/-- What the service pass reads of the value `x` of the shape pass, put in the place of what is wanted,
has the value of what is wanted. -/
def Wanted.Rereads (config : SchemaConfig) (answers : Answers) (frame : Frame) (w x : Wanted) : Prop :=
  ∀ ⦃v r m : Json⦄ ⦃item : Item⦄, w.Evaluated config answers false v →
    w.Readable config answers false v → x.value config answers false v = some r →
    item.ty = x.resultTy → item.called false = false → item.value config answers m = some r →
      (w.withItem frame item).Evaluated config answers false m ∧
        (w.withItem frame item).value config answers false m = w.value config answers false v

/-- A value that was handed on as it is. -/
theorem Wanted.rereads_leaf {frame : Frame} (below : frame.isRoot = false) {w : Wanted}
    (sound : w.Sound) (hs : w.item.source.isService = false) :
    w.Rereads config answers frame (.leaf w.item) := by
  intro v r m item evaluated readable hr ty uncalled hm
  have ty : item.ty = w.item.ty := ty
  have calls : item.called false = w.item.called false :=
    uncalled.trans (Item.called_of_plain hs).symm
  have same : w.withItem frame item = w.setItem item := by
    cases w with
    | leaf old => rfl
    | object old ws =>
      obtain ⟨-, flat, -, sounds⟩ := sound
      have ty : item.ty = old.ty := ty
      rw [withItem, ty, viewAll_flat below flat sounds]
      rfl
    | list old ws =>
      obtain ⟨-, -, ⟨t, ht, flat⟩, sounds⟩ := sound
      have ty : item.ty = old.ty := ty
      rw [withItem, ty, ht, Option.getD_some, viewAll_flat below flat sounds]
      rfl
  have value : item.value config answers m = w.item.value config answers v := hm.trans hr.symm
  rw [same]
  exact ⟨evaluated_setItem value ty calls evaluated, value_setItem value ty calls⟩

section Frame

variable {frame : Frame} (changed : frame.contextChanged = true) (below : frame.isRoot = false)
  {ws shaped : List Wanted} (accounts : Wanted.Accounts ws shaped)
  (all : Wanted.ShapedAll shaped ws) (sound : Wanted.SoundAll ws)
  (each : ∀ w ∈ ws, w.item.source.isService = false → ∀ x, w.Shaped x →
    w.Rereads config answers frame.below x)

include changed below accounts all sound each

/-- What the service pass reads in a record that the shape pass built. -/
theorem Wanted.view_children {τ : Ty} (has : τ.Has shaped) {u : Json}
    (evaluated : EvaluatedAll config answers false u ws)
    (readable : ReadableAll config answers false u ws) {fields : List (String × Json)}
    (hfields : values config answers false u shaped = some fields) :
    EvaluatedAll config answers false (.obj fields) (viewAll frame τ ws) ∧
      values config answers false (.obj fields) (viewAll frame τ ws) =
        values config answers false u ws := by
  rw [evaluatedAll_iff] at evaluated ⊢
  rw [readableAll_iff] at readable
  obtain ⟨held, shapes⟩ := shapedAll_iff.mp all
  have child : ∀ w ∈ ws, (w.view frame τ).Evaluated config answers false (.obj fields) ∧
      (w.view frame τ).value config answers false (.obj fields) = w.value config answers false u := by
    intro w hw
    have hsound := soundAll_iff.mp sound w hw
    cases hs : w.item.source.isService with
    | true =>
      have value := Item.value_reread hsound.item hs accounts (held w hw hs) has hfields
        (readable w hw).source
      have ty : (w.item.reread τ).ty = w.item.ty := Resolve.tyOver_of_isService hs τ _
      have calls : (w.item.reread τ).called false = w.item.called false := by
        unfold Item.called Item.reread
        generalize w.item.source = source at hs
        cases source with
        | service name method args => rfl
        | _ => cases hs
      rw [view_service changed below has hsound hs (held w hw hs)]
      exact ⟨evaluated_setItem value ty calls (evaluated w hw), value_setItem value ty calls⟩
    | false =>
      obtain ⟨x, hx, shape⟩ := shapes w hw hs
      obtain ⟨r, hr⟩ := values_some_iff.mp ⟨fields, hfields⟩ x hx
      rw [view_shaped changed below has accounts hx shape]
      refine each w hw hs x shape (evaluated w hw) (readable w hw) hr rfl rfl ?_
      have member : Dict.find? fields w.item.name = some r := by
        rw [← hr, ← find?_values hfields accounts.nodup hx, shape.name_eq]
        rfl
      rw [Item.value_of_plain rfl]
      show Json.readPath [w.item.name] (.obj fields) = some r
      rw [Json.readPath_singleton, Json.readMember, member, Option.getD_some]
  rw [viewAll_eq, List.forall_mem_map]
  exact ⟨fun w hw => (child w hw).1,
    values_map fun w hw => ⟨name_view frame τ w, (child w hw).2⟩⟩

/-- An object of which the shape pass built a record. -/
theorem Wanted.rereads_object {old : Item} (hs : old.source.isService = false) :
    (object old ws).Rereads config answers frame (object old shaped) := by
  intro v r m item evaluated readable hr ty uncalled hm
  have ty : item.ty = .record old.name (resultTys shaped) old.ty.nullable := ty
  have nullable : item.ty.nullable = old.ty.nullable := by rw [ty]; rfl
  have called : old.called false = false := Item.called_of_plain hs
  have inside := evaluated.2
  have inner := readable.2
  rw [called, Bool.or_false] at inside inner
  rw [Wanted.value, called, Bool.or_false] at hr
  obtain ⟨u, hu, hr⟩ := Option.bind_eq_some_iff.mp hr
  rw [withItem, Wanted.Evaluated, Wanted.value, Wanted.value, uncalled, called, hm, hu,
    Bool.or_false, Bool.or_false, nullable]
  simp only [Option.bind_eq_bind, Option.bind_some, Option.isSome_some, implies_true, true_and,
    Option.some.injEq, forall_eq']
  split at hr
  · rename_i hguard
    cases hr
    have hnull : old.ty.nullable = true := (Bool.and_eq_true_iff.mp hguard).2
    rw [if_pos hguard, hnull]
    exact ⟨fun h => Bool.noConfusion h, rfl⟩
  · rename_i hguard
    have hguard' := Bool.eq_false_iff.mpr hguard
    obtain ⟨fields, hfields, hr⟩ := Option.bind_eq_some_iff.mp hr
    cases hr
    obtain ⟨there, same⟩ := view_children (τ := item.ty) changed below accounts all sound each
      (ty ▸ fun name => rfl) (inside u hu hguard') (inner u hu hguard') hfields
    rw [if_neg hguard, same]
    exact ⟨fun _ => there, rfl⟩

/-- A list of which the shape pass built a list of records. -/
theorem Wanted.rereads_list {old : Item} :
    (list old ws).Rereads config answers frame (list old shaped) := by
  intro v r m item evaluated readable hr ty uncalled hm
  have ty : item.ty = .list (.record old.name (resultTys shaped) false) old.ty.nullable := ty
  have element : item.ty.element?.getD .json = .record old.name (resultTys shaped) false := by
    rw [ty]
    rfl
  rw [Wanted.value] at hr
  obtain ⟨u, hu, hr⟩ := Option.bind_eq_some_iff.mp hr
  rw [withItem, Wanted.Evaluated, Wanted.value, Wanted.value, hm, hu, element]
  cases u with
  | null =>
    cases hr
    refine ⟨?_, rfl⟩
    rintro items ⟨⟩
  | arr items =>
    obtain ⟨rs, hrs, rfl⟩ := Option.map_eq_some_iff.mp hr
    have body : ∀ u ∈ items, ∀ y, (values config answers false u shaped).map Json.obj = some y →
        EvaluatedAll config answers false y
            (viewAll frame (.record old.name (resultTys shaped) false) ws) ∧
          values config answers false y
              (viewAll frame (.record old.name (resultTys shaped) false) ws) =
            values config answers false u ws := by
      intro u hmem y hy
      obtain ⟨fields, hfields, rfl⟩ := Option.map_eq_some_iff.mp hy
      exact view_children changed below accounts all sound each (fun name => rfl)
        (evaluated items hu u hmem) (readable.2 items hu u hmem) hfields
    refine ⟨fun items' hi y hy => ?_, ?_⟩
    · cases hi
      obtain ⟨u, hmem, hy⟩ := mem_of_mapM hrs hy
      exact (body u hmem y hy).1
    · simp only [Option.bind_eq_bind, Option.bind_some, Json.forItems]
      rw [mapM_of_mapM hrs fun u hmem y hy => by rw [(body u hmem y hy).2]]
  | _ => cases hr

end Frame

/-- What the service pass reads of the value of the shape pass has the value of all that is wanted. -/
theorem Wanted.Shaped.rereads {w x : Wanted} (h : w.Shaped x) (sound : w.Sound)
    (hs : w.item.source.isService = false) {frame : Frame} (changed : frame.contextChanged = true)
    (below : frame.isRoot = false) : w.Rereads config answers frame x := by
  induction w using Wanted.induction generalizing x frame with
  | leaf old =>
    cases h
    exact rereads_leaf below sound hs
  | object old ws ih =>
    obtain ⟨shaped, all, accounts, rfl⟩ := h
    cases shaped with
    | nil => exact rereads_leaf below sound hs
    | cons x shaped =>
      rw [List.isEmpty_cons, if_neg Bool.false_ne_true]
      have sounds := sound.2.2.2
      have later : frame.below.contextChanged = true := changed
      exact rereads_object changed below accounts all sounds (fun w hw hs x shape =>
        ih w hw shape (soundAll_iff.mp sounds w hw) hs later rfl) hs
  | list old ws ih =>
    obtain ⟨shaped, all, accounts, rfl⟩ := h
    cases shaped with
    | nil => exact rereads_leaf below sound hs
    | cons x shaped =>
      rw [List.isEmpty_cons, if_neg Bool.false_ne_true]
      have sounds := sound.2.2.2
      have later : frame.below.contextChanged = true := changed
      exact rereads_list changed below accounts all sounds fun w hw hs x shape =>
        ih w hw shape (soundAll_iff.mp sounds w hw) hs later rfl

/-! ## Root fields -/

/-- Null is what the shape pass gives only where null is wanted, unless it hands on a value as it is.
-/
theorem Wanted.Shaped.value_null {w x : Wanted} (h : w.Shaped x)
    (kind : ∀ item, x = .leaf item → w = .leaf item) (hs : w.item.source.isService = false) {v : Json}
    (hx : x.value config answers false v = some .null) :
    w.value config answers false v = some .null := by
  cases w with
  | leaf item =>
    cases h
    exact hx
  | object item ws =>
    obtain ⟨shaped, -, -, rfl⟩ := h
    cases shaped with
    | nil => cases kind item rfl
    | cons x shaped =>
      rw [List.isEmpty_cons, if_neg Bool.false_ne_true, Wanted.value] at hx
      obtain ⟨u, hu, hx⟩ := Option.bind_eq_some_iff.mp hx
      rw [Wanted.value, hu, Option.bind_eq_bind, Option.bind_some]
      split at hx
      · rw [if_pos ‹_›]
        rfl
      · obtain ⟨fields, -, hx⟩ := Option.bind_eq_some_iff.mp hx
        cases hx
  | list item ws =>
    obtain ⟨shaped, -, -, rfl⟩ := h
    cases shaped with
    | nil => cases kind item rfl
    | cons x shaped =>
      rw [List.isEmpty_cons, if_neg Bool.false_ne_true, Wanted.value] at hx
      obtain ⟨u, hu, hx⟩ := Option.bind_eq_some_iff.mp hx
      rw [Wanted.value, hu]
      cases u with
      | null => rfl
      | arr items =>
        obtain ⟨rs, -, hx⟩ := Option.map_eq_some_iff.mp hx
        cases hx
      | _ => cases hx

/-- A root field is read as the whole result of the shape pass. -/
theorem Wanted.root_view {w : Wanted} {frame : Frame} (changed : frame.contextChanged = true)
    (root : frame.isRoot = true) (τ : Ty) :
    w.view frame τ = w.withItem frame.below (w.item.whole τ) := by
  rw [view_eq_withItem]
  refine congrArg (w.withItem frame.below) ?_
  unfold Item.view
  rw [if_pos changed, if_pos root]

/-- What the service pass reads of the result of the shape pass has the value that is wanted of a root
field. -/
theorem Wanted.Shaped.root_value {w x : Wanted} (h : w.Shaped x) (sound : w.Sound)
    (hs : w.item.source.isService = false) {frame : Frame} (changed : frame.contextChanged = true)
    (root : frame.isRoot = true) {v m : Json} (evaluated : w.Evaluated config answers false v)
    (readable : w.Readable config answers false v) (hm : x.value config answers false v = some m) :
    (w.view frame x.resultTy).Evaluated config answers false m ∧
      (w.view frame x.resultTy).value config answers false m = w.value config answers false v := by
  have value : (w.item.whole x.resultTy).value config answers m = some m := Item.value_of_plain rfl m
  have below : frame.below.contextChanged = true := changed
  rw [root_view changed root]
  exact h.rereads sound hs below rfl evaluated readable hm rfl rfl value

/-- So can be planned what is wanted of a root field. -/
theorem Wanted.Shaped.root_plannable {w x : Wanted} (h : w.Shaped x) (sound : w.Sound)
    {frame : Frame} (changed : frame.contextChanged = true) (root : frame.isRoot = true) :
    w.Plannable config registered ↔ x.Plannable config registered ∧
      (w.view frame x.resultTy).Plannable config registered := by
  have plannable : (w.item.whole x.resultTy).Plannable config registered :=
    Item.plannable_of_member rfl rfl
  have below : frame.below.contextChanged = true := changed
  rw [root_view changed root]
  exact h.plannable_iff sound below rfl plannable rfl

/-- The service pass reads no list as an object. -/
theorem Wanted.Shaped.root_regular {w x : Wanted} (h : w.Shaped x) (sound : w.Sound)
    (regular : w.Regular) {frame : Frame} (changed : frame.contextChanged = true)
    (root : frame.isRoot = true) : (w.view frame x.resultTy).Regular := by
  have below : frame.below.contextChanged = true := changed
  rw [root_view changed root]
  exact h.regular sound regular below rfl rfl

end FieldPlan
