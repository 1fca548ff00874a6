import FieldPlan.Proofs.Planning.Children

/-!
# Planning nodes

* `FieldDef.entity_of_object`, `FieldDef.entity_of_list`, `FieldDef.entity_of_scalar` : the types of
  fields of each shape;
* `Selecting` : a field whose value is arranged, before its children are planned, with what becomes of
  it (`Selecting.childless`, `Selecting.record`, `Selecting.select`, `Selecting.selectOnce_ok`);
* `Planner.planScalar_ok`, `Planner.planObject_ok`, `Planner.planList_ok` : planning a field of each
  kind;
* `Planner.planNode_ok` : planning a node renders what is wanted of it, if it succeeds.
-/

namespace FieldPlan

open Expr

open Extension.Paging (addSkip addTake)

variable {config : SchemaConfig} {c : Planner} {frame : Frame} {s s' : PlanState} {C : Expr}

/-! ## Shapes -/

theorem FieldDef.entity_of_object {f : FieldDef} (h : f.shape = .object) :
    ∃ name nullable, f.ty = .entity name nullable := by
  unfold FieldDef.shape FieldDef.entity at h
  generalize f.ty = t at h ⊢
  cases t with
  | entity name nullable => exact ⟨name, nullable, rfl⟩
  | list t nullable =>
    cases hn : t.entityName <;>
      simp [Ty.selectsList, Ty.isList, Ty.element?, Ty.entityName, hn] at h
  | _ => simp [Ty.selectsList, Ty.isList, Ty.element?, Ty.entityName] at h

theorem FieldDef.entity_of_scalar {f : FieldDef} (h : f.shape = .scalar) : f.ty.entityName = none := by
  unfold FieldDef.shape FieldDef.entity at h
  split at h
  · cases h
  · split at h
    · cases h
    · rename_i hentity
      exact Option.not_isSome_iff_eq_none.mp hentity

theorem FieldDef.ty_of_object {f : FieldDef} (h : f.shape = .object) :
    f.ty.Flat ∧ f.ty.element? = none ∧ ∀ p : Param, p.Given → p.ty.sameShape f.ty = false := by
  obtain ⟨name, n, hty⟩ := entity_of_object h
  rw [hty]
  refine ⟨fun _ => rfl, rfl, fun p hp => ?_⟩
  rcases hp with hp | ⟨name, hp⟩ <;> rw [hp] <;> rfl

/-- A field whose items are selected into has a list type around an entity. -/
theorem FieldDef.selectsList_of_list {f : FieldDef} (h : f.shape = .list) : f.ty.selectsList = true := by
  unfold FieldDef.shape at h
  split at h
  · assumption
  · split at h <;> cases h

/-- A field selects into the entities of a list, if not into the ones of lists in it. -/
theorem FieldDef.entity_of_list {f : FieldDef} (h : f.shape = .list)
    (nestless : ∀ t, f.ty.element? = some t → t.element? = none) :
    ∃ name inner nullable, f.ty = .list (.entity name inner) nullable := by
  have selects := selectsList_of_list h
  generalize f.ty = t at selects nestless ⊢
  cases t with
  | list t nullable =>
    cases t with
    | entity name inner => exact ⟨name, inner, nullable, rfl⟩
    | list t _ => cases nestless _ rfl
    | _ => simp [Ty.selectsList, Ty.entityName] at selects
  | _ => simp [Ty.selectsList, Ty.isList, Ty.element?] at selects

theorem FieldDef.ty_of_list {f : FieldDef} (h : f.shape = .list) :
    f.ty.Flat ∧ ∀ t, f.ty.element? = some t → t.Flat := by
  have selects := selectsList_of_list h
  generalize f.ty = t at selects ⊢
  cases t with
  | list t n =>
    refine ⟨fun _ => rfl, fun u hu => ?_⟩
    cases hu
    cases t with
    | record name fields n => simp [Ty.selectsList, Ty.entityName] at selects
    | _ => exact fun _ => rfl
  | _ => simp [Ty.selectsList, Ty.isList, Ty.element?] at selects

/-! ## Base expressions -/

section Bases

variable {item : Item} {base : Base} {a : Arrangement} {n : Nat} {e : Expr}

theorem Expr.Own.isConstruction {Record : Param → Prop} {source : Resolve}
    (h : Own Record C source e) (hC : C.isConstruction = false) : e.isConstruction = false := by
  cases h with
  | member chain =>
    cases chain with
    | nil => exact hC
    | snoc => rfl
  | _ => rfl

theorem Arranges.isConstruction {base e : Expr} (h : Arranges config base a e)
    (hb : base.isConstruction = false) : e.isConstruction = false := by
  have slices : ∀ {list : Expr}, list.isConstruction = false → ∀ skip take,
      (addTake (addSkip list skip) take).isConstruction = false := by
    rintro list hl (_ | _ | _) (_ | _) <;> first | exact hl | rfl
  have sorted : ∀ {entity element first order} {list sorted : Expr},
      Sorted config entity element first order list sorted → list.isConstruction = false →
        sorted.isConstruction = false := by
    intro entity element first order list sorted h hl
    induction h with
    | nil => exact hl
    | cons _ _ _ _ ih => exact ih rfl
  cases h with
  | plain _ => exact slices hb _ _
  | sorted _ _ _ hs => exact slices (sorted hs hb) _ _

theorem Expr.Own.not_served {Record : Param → Prop} {source : Resolve} (h : Own Record C source e)
    (hsource : ∀ name method args, source ≠ .service name method args) (hC : ¬C.Served) :
    ¬e.Served := by
  cases h with
  | member chain => rwa [chain.served_iff]
  | service name method t _ => exact absurd rfl (hsource name method _)
  | constant v t =>
    rw [Expr.served_iff]
    simp [children]

/-- In the shape pass no base expression calls a service. -/
theorem Based.not_served {f : Field} {fc : FieldConfig} {source : Resolve} {low fresh : Nat}
    (traits : f.Traits config fresh fc source) (hf : f.hasServices = false)
    (hsource : item.source = source) (admits : frame.Admits low s C) (hpass : frame.pass = .shape)
    (based : Based low frame s' C item base) : ¬base.expr.Served := by
  have hchanged : frame.contextChanged = false := by
    rw [Bool.eq_false_iff]
    intro h
    have := (admits.changed h).1
    rw [hpass] at this
    cases this
  have own := based.own s' (.refl s')
  rw [Item.view_unchanged hchanged, hsource] at own
  refine own.not_served (fun name method args hs => ?_) (admits.unserved hpass)
  rw [traits.hasServices_eq, hs] at hf
  cases hf

/-- The arranged base expression of an object as the context of its children. -/
theorem Arranged.admits {low : Nat} (arranged : Arranged config s'.fresh n base.expr a e)
    (good : s'.Good) (based : Based low frame s' C item base) (admits : frame.Admits low s C)
    (hs : s.Grows s') (hflat : item.ty.Flat) (hobject : item.ty.element? = none)
    (unserved : frame.pass = .shape → ¬base.expr.Served) :
    frame.below.Admits low (s'.drawn n) e where
  coherent := arranged.coherent
  above i hi := by
    rcases arranged.ids i hi with hi | ⟨hle, -⟩
    · exact based.above i hi
    · exact Nat.le_trans (admits.grows hs).low hle
  below := (arranged.emitted good based hs).below
  apart := (arranged.emitted good based hs).apart admits
    (hs.trans (PlanState.grows_drawn arranged.drawn)) (.refl _)
  called served := by
    obtain ⟨called, hty⟩ := based.called (arranged.arranges.served_iff.mp served)
    refine ⟨?_, ?_⟩
    · cases arranged.arranges with
      | plain _ => exact addTake_called (addSkip_called called _) _
      | sorted _ hel _ _ =>
        rw [hty, hobject] at hel
        cases hel
    · rw [arranged.arranges.ty_eq, hty]
      exact hflat
  unserved hpass served := unserved hpass (arranged.arranges.served_iff.mp served)
  flat hchanged := by
    have unchanged : frame.contextChanged = false := hchanged
    rw [arranged.arranges.ty_eq, based.ty, Item.view_unchanged unchanged]
    exact hflat
  changed hchanged := ⟨(admits.changed hchanged).1, fun h => by cases h⟩
  built := arranged.arranges.isConstruction
    ((based.own s' (.refl s')).isConstruction admits.built)
  low := Nat.le_trans (admits.grows hs).low arranged.drawn

end Bases

/-- The parameter of the items of a list as the context of the children. -/
theorem admits_param {low : Nat} {x : Param} (above : low ≤ x.id) (below : x.id < s.fresh)
    (flat : frame.contextChanged = false → x.ty.Flat)
    (changed : frame.contextChanged = true → frame.pass = .services) :
    frame.Admits low s (.param x) where
  coherent := coherent_param x
  above i hi := by
    obtain rfl : i = x.id := by simpa [Expr.ids, subterms, own?] using hi
    exact above
  below i hi := by
    obtain rfl : i = x.id := by simpa [Expr.ids, subterms, own?] using hi
    exact below
  apart i hi := by cases hi
  called hs := absurd hs (not_served_param x)
  unserved _ := not_served_param x
  flat := flat
  changed hc := ⟨changed hc, fun _ => not_served_param x⟩
  built := rfl
  low := Nat.le_of_lt (Nat.lt_of_le_of_lt above below)

/-! ## Fields -/

theorem Item.view_plain (frame : Frame) (τ : Ty) (item : Item) :
    Item.view frame τ { item with arrangement := some {} } =
      { item.view frame τ with arrangement := some {} } := by
  unfold Item.view
  split
  · split
    · rfl
    · dsimp only
      cases τ.member? item.name <;> rfl
  · rfl

/-- A value that is wanted as it is. -/
theorem plans_leaf (item : Item) (base : Expr) {e : Expr}
    (emitted : Emitted s s' C e) (good : s'.Good) (uses : s.Uses s' (s'.bound e).ids)
    (covers : s'.Covers e) (reads : ∀ final : PlanState, s'.Grows final → final.Covers e →
      Reads config final C (item.view frame C.ty) base e) :
    Plans config frame s s' C (.leaf item) (s'.bound e) := by
  refine ⟨emitted.bound good, uses, fun final hfinal _ => ?_⟩
  rw [← hfinal.bound covers]
  exact .leaf (reads final hfinal (hfinal.covers covers))

section Fields

variable {t : Target} {fc : FieldConfig} {source : Resolve} {planChild : Planner.PlanChild}
  {wantChild : Pass → Bool → Selected → List NodeId → Path → Except PlanError (Option Wanted)}

/-- A scalar field is planned as a value that is wanted as it is. -/
theorem Planner.planScalar_ok (built : config.build = .ok c.schema) (kept : c.Kept t.toSelected)
    (traits : t.field.Traits config c.schema.fresh fc source)
    (admits : frame.Admits c.schema.fresh s t.context) (good : s.Good) {r : Option Expr}
    (h : c.planScalar t frame s = .ok (r, s')) :
    ∃ item, c.item config t.toSelected t.lineage t.path = .ok item ∧
      Outcome config frame s s' t.context t.name (some (.leaf { item with arrangement := some {} }))
        r := by
  unfold Planner.planScalar at h
  obtain ⟨r', s₁, hbase, h₁⟩ := run_bind_ok.mp h
  obtain ⟨base, item, rfl, hitem, grows, good₁, based⟩ :=
    Planner.resolveBase_ok built kept good admits hbase
  dsimp only at h₁
  rw [Planner.scalarExpression_eq traits.extensions, pure_bind] at h₁
  obtain ⟨e, s₂, hbind, h₂⟩ := run_bind_ok.mp h₁
  obtain ⟨rfl, rfl⟩ := run_pure_ok.mp h₂
  obtain ⟨grows₂, good₂, covers, rfl⟩ := bindServices_ok good₁ based.coherent hbind
  have uses₁ : s.Uses s₁ [] := Planner.resolveBase_uses hbase
  have uses : s.Uses s₂ (s₂.bound base.expr).ids :=
    uses₁.trans grows₂ (bindServices_uses good₁ based.coherent hbind)
  refine ⟨item, hitem, .some (grows.trans grows₂) good₂
    (Planner.item_ok traits hitem).name (plans_leaf _ base.expr
      (based.emitted.grows grows₂) good₂ uses covers fun final hfinal hcovers => ?_)⟩
  have own := based.own final (grows₂.trans hfinal)
  rw [Item.view_plain]
  refine ⟨?_, based.ty, ⟨{}, rfl, .plain rfl⟩, ?_, hcovers, based.coherent⟩
  · rwa [← Item.arguments_view frame t.context.ty] at own
  · exact based.emitted.apart admits grows (grows₂.trans hfinal)

/-- A parameter that was drawn and is not bound. -/
structure Param.Free (x : Param) (s s' : PlanState) : Prop where
  above : s.fresh ≤ x.id
  below : x.id < s'.fresh
  unbound : x.id ∉ s'.boundIds

theorem Param.Free.grows {x : Param} {s s' s'' : PlanState} (h : x.Free s s') (hs : s'.Grows s'') :
    x.Free s s'' where
  above := h.above
  below := Nat.lt_of_lt_of_le h.below hs.fresh
  unbound := by
    rw [hs.boundIds h.below]
    exact h.unbound

theorem Param.Free.drawn {s s' : PlanState} (good : s'.Good) (hs : s.Grows s') (name : String)
    (t : Ty) : Param.Free ⟨s'.fresh, name, t⟩ s s'.next where
  above := hs.fresh
  below := Nat.lt_succ_self s'.fresh
  unbound := PlanState.not_bound_of_fresh good (.refl _)

/-! ### Fields with a selection -/

/-- A field whose value is arranged, before its children are planned. -/
structure Selecting (config : SchemaConfig) (frame : Frame) (s s' : PlanState) (C : Expr)
    (label : String) (item : Item) (base e : Expr) : Prop where
  name : item.name = label
  grows : s.Grows s'
  good : s'.Good
  uses : s.Uses s' []
  unarranged : Emitted s s' C base
  emitted : Emitted s s' C e
  ty : base.ty = (item.view frame C.ty).ty
  ty_eq : e.ty = base.ty
  unserved : frame.pass = .shape → ¬e.Served
  reads : ∀ final : PlanState, s'.Grows final → final.Covers e →
    Reads config final C (item.view frame C.ty) base e

/-- The extensions of a field arrange its value. -/
theorem Planner.selecting_ok (built : config.build = .ok c.schema)
    (traits : t.field.Traits config c.schema.fresh fc source)
    (hpass : frame.pass = .shape → t.field.hasServices = false)
    (admits : frame.Admits c.schema.fresh s t.context) {item : Item}
    (described : item.For t.toSelected fc source) {s₁ s₂ : PlanState} (grows : s.Grows s₁)
    (good : s₁.Good) (uses : s.Uses s₁ []) {base : Base}
    (based : Based c.schema.fresh frame s₁ t.context item base) {e : Expr} {x x' : Option Param}
    (h : preSelection t (c.site t base frame) base.expr x s₁ = .ok ((e, x'), s₂)) :
    x' = x ∧ ∃ a n, s₂ = s₁.drawn n ∧ Arranged config s₁.fresh n base.expr a e ∧
      Selecting config frame s s₂ t.context t.name item base.expr e := by
  obtain ⟨hx, hs₂, a, ha, arranged⟩ := Planner.preSelection_ok built traits.extensions
    described.arrangement (admits.grows grows).low based h
  replace hs₂ : s₂ = s₁.drawn s₂.fresh := hs₂
  generalize s₂.fresh = n at hs₂ arranged
  subst hs₂
  have drawn := PlanState.grows_drawn arranged.drawn
  exact ⟨hx, a, n, rfl, arranged, {
    name := described.name
    grows := grows.trans drawn
    good := good.drawn arranged.drawn
    uses := uses
    unarranged := (based.grows drawn).emitted
    emitted := arranged.emitted good based grows
    ty := based.ty
    ty_eq := arranged.arranges.ty_eq
    unserved := fun hp served => based.not_served traits (hpass hp) described.source admits hp
      (arranged.arranges.served_iff.mp served)
    reads := fun final hfinal => arranged.reads good based admits grows ha hfinal }⟩

namespace Selecting

variable {item : Item} {label : String} {base e : Expr} {s'' : PlanState} {ws : List Wanted}
  {children : Children}

/-- A value that is selected from as it is comes from no service. -/
theorem not_served (h : Selecting config frame s s' C label item base e)
    (hserved : ¬(decide (frame.pass = .services) && !e.services.isEmpty) = true) : ¬e.Served := by
  cases hp : frame.pass with
  | shape => exact h.unserved hp
  | services =>
    simpa only [hp, decide_true, Bool.true_and, Bool.not_eq_true', Bool.not_eq_false,
      services_isEmpty] using hserved

/-- A field of which nothing is wanted is handed on as it is, or left out. -/
theorem childless (h : Selecting config frame s s' t.context t.name item base e) {below : Frame}
    {D : Expr} (planned : PlansAll config below s' s'' D ws []) :
    Outcome config frame s s'' t.context t.name
      (if c.carries t frame then some (.leaf item) else none)
      (if c.carries t frame then some e else none) := by
  have uses : s.Uses s'' [] := h.uses.trans planned.grows planned.uses
  split
  · rename_i hcarries
    have hs : ¬e.Served := by
      simp only [Planner.carries, Bool.and_eq_true, decide_eq_true_eq] at hcarries
      exact h.unserved hcarries.1.1
    have leaf := plans_leaf item base (h.emitted.grows planned.grows) planned.good
      (uses.mono nofun) (PlanState.covers_of_not_served hs) fun final hfinal =>
        h.reads final (planned.grows.trans hfinal)
    rw [PlanState.bound_of_not_served h.emitted.coherent hs] at leaf
    exact .some (h.grows.trans planned.grows) planned.good h.name leaf
  · exact .none (h.grows.trans planned.grows) planned.good uses

/-- The record of the children, for an object that comes from no service. -/
theorem record (h : Selecting config frame s s' C label item base e) (hs : ¬e.Served)
    (planned : PlansAll config frame.below s' s'' e ws children) :
    Outcome config frame s s'' C label (some (.object item ws))
      (some (guardIf e.ty.nullable e (.record label children))) := by
  have uses := h.uses.trans planned.grows planned.uses
  refine .some (h.grows.trans planned.grows) planned.good h.name
    ⟨?_, uses.mono fun i hi => ?_, fun final hfinal hgood => ?_⟩
  · have record : Emitted s s'' C (.record label children) := emitted_record fun child hc =>
      h.emitted.trans planned.grows (planned.emitted child hc) h.grows
    unfold guardIf
    split
    · exact emitted_nullGuarded (h.emitted.grows planned.grows) record
    · exact record
  · have record := mem_ids_children label hi
    unfold guardIf
    split
    · exact mem_ids_guarded (.inr record)
    · exact record
  · have reads := h.reads final (planned.grows.trans hfinal) (PlanState.covers_of_not_served hs)
    have plain := Renders.plain reads hs
      (h.ty_eq.trans h.ty ▸ planned.renders final hfinal hgood) planned.nodup
    rwa [Item.name_view, h.name] at plain

/-- The children of the items of a list. -/
theorem fields (h : Selecting config frame s s' C label item base e) {x : Param} (free : x.Free s s')
    {below : Frame} (planned : PlansAll config below s' s'' (.param x) ws children) :
    ∀ child ∈ children, Emitted s s'' C child.2 := fun child hc =>
  (emitted_param free.below).trans planned.grows (planned.emitted child hc) h.grows

/-- The record of the children for each item, of a list that comes from no service. -/
theorem select (h : Selecting config frame s s' C label item base e) (hs : ¬e.Served) {x : Param}
    (free : x.Free s s') (hel : base.ty.element? = some x.ty)
    (planned : PlansAll config frame.below s' s'' (.param x) ws children) :
    Outcome config frame s s'' C label (some (.list item ws))
      (some (guardIf base.ty.nullable base (.select e x (.record label children)))) := by
  have uses := h.uses.trans planned.grows planned.uses
  have later := free.grows planned.grows
  refine .some (h.grows.trans planned.grows) planned.good h.name
    ⟨?_, uses.mono fun i hi => ?_, fun final hfinal hgood => ?_⟩
  · have select : Emitted s s'' C (.select e x (.record label children)) :=
      emitted_select later.above later.below later.unbound (h.ty_eq ▸ hel)
        (h.emitted.grows planned.grows) (emitted_record (h.fields free planned))
    unfold guardIf
    split
    · exact emitted_nullGuarded (h.unarranged.grows planned.grows) select
    · exact select
  · have select : i ∈ (Expr.select e x (.record label children)).ids :=
      ids_of_child (List.mem_cons_of_mem _ List.mem_cons_self) (mem_ids_children label hi)
    unfold guardIf
    split
    · exact mem_ids_guarded (.inr select)
    · exact select
  · have element : (item.view frame C.ty).ty.element?.getD .json = x.ty := by
      rw [← h.ty, hel]
      rfl
    have reads := h.reads final (planned.grows.trans hfinal) (PlanState.covers_of_not_served hs)
    have items := Renders.items reads hs hel (planned.renders final hfinal hgood) planned.nodup
      (later.grows hfinal).unbound
    rw [Item.name_view, h.name] at items
    rw [Wanted.view, element]
    exact items

end Selecting

/-- An object field is planned as the object of what is wanted of its value. In the shape pass, when
nothing is wanted of it, it may be handed to the service pass as it is. -/
theorem Planner.planObject_ok (built : config.build = .ok c.schema) (onSchema : c.tree.Over c.schema)
    (hchild : PlansChild config c planChild wantChild) (kept : c.Kept t.toSelected)
    (traits : t.field.Traits config c.schema.fresh fc source) (hshape : t.field.shape = .object)
    (hpass : frame.pass = .shape → t.field.hasServices = false)
    (admits : frame.Admits c.schema.fresh s t.context) (good : s.Good) {r : Option Expr}
    (h : c.planObject planChild t frame s = .ok (r, s')) :
    ∃ item parts ws, c.item config t.toSelected t.lineage t.path = .ok item ∧
      c.expand frame.pass t.path t.node.children = .ok parts ∧
      parts.foldlM (addWanted fun child => wantChild frame.pass false child (t.id :: t.lineage)
        (t.path.child child.node.name)) [] = .ok ws ∧
      Outcome config frame s s' t.context t.name
        (if ws.isEmpty then if c.carries t frame then some (.leaf item) else none
          else some (.object item ws)) r := by
  obtain ⟨hflat, hobject, given⟩ := FieldDef.ty_of_object hshape
  unfold Planner.planObject at h
  obtain ⟨r', s₁, hbase, h₁⟩ := run_bind_ok.mp h
  obtain ⟨base, item, rfl, hitem, grows, good₁, based⟩ :=
    Planner.resolveBase_ok built kept good admits hbase
  have described := Planner.item_ok traits hitem
  rw [← described.ty] at hflat hobject given
  dsimp only at h₁
  obtain ⟨⟨e, x⟩, s₂, hpre, h₂⟩ := run_bind_ok.mp h₁
  obtain ⟨-, a, n, rfl, arranged, selecting⟩ := Planner.selecting_ok built traits hpass admits
    described grows good₁ (Planner.resolveBase_uses hbase) based hpre
  have below := arranged.admits good₁ based admits grows hflat hobject fun hp =>
    mt arranged.arranges.served_iff.mpr (selecting.unserved hp)
  obtain ⟨children, s₃, hchildren, h₃⟩ := run_bind_ok.mp h₂
  obtain ⟨parts, ws, hexpand, hws, planned⟩ :=
    Planner.planChildren_ok built onSchema hchild selecting.good below hchildren
  refine ⟨item, parts, ws, hitem, hexpand, hws, ?_⟩
  have empty : List.isEmpty children = ws.isEmpty := planned.isEmpty_eq
  have construction : e.isConstruction = false := below.built
  rw [← empty]
  dsimp only at h₃
  split at h₃
  · rename_i hempty
    obtain rfl := List.isEmpty_iff.mp hempty
    obtain ⟨rfl, rfl⟩ := run_pure_ok.mp h₃
    exact selecting.childless planned
  · rename_i hempty
    rw [if_neg hempty]
    rw [construction, Bool.and_false, Bool.or_false] at h₃
    split at h₃
    · rename_i hserved
      simp only [Bool.and_eq_true, decide_eq_true_eq, Bool.not_eq_true', ← Bool.not_eq_true,
        services_isEmpty, not_not] at hserved
      obtain ⟨e', s₄, hwrap, h₄⟩ := run_bind_ok.mp h₃
      obtain ⟨rfl, rfl⟩ := run_pure_ok.mp h₄
      have hty : e.ty = item.ty := selecting.ty_eq.trans
        (based.called (arranged.arranges.served_iff.mp hserved.2)).2
      obtain ⟨grows₄, good₄, plans⟩ := Planner.wrapOnce_ok traits.extensions hserved.2
        (below.called hserved.2).1 (fun p hp => hty ▸ given p hp) selecting.emitted selecting.grows
        selecting.uses planned (fun final hfinal => selecting.reads final (planned.grows.trans hfinal))
        described.name (selecting.ty_eq.trans selecting.ty) hwrap
      exact .some ((selecting.grows.trans planned.grows).trans grows₄) good₄ described.name plans
    · rename_i hserved
      rw [Planner.selection_eq traits.extensions, pure_bind] at h₃
      obtain ⟨rfl, rfl⟩ := run_pure_ok.mp h₃
      rw [construction, Bool.not_false, Bool.and_true]
      exact selecting.record (selecting.not_served hserved) planned

/-- A list of items that comes from a service is fetched once. -/
theorem Selecting.selectOnce_ok {item : Item} {base e e' : Expr} {x : Param} {children : Children}
    {ws : List Wanted} {s s₀ s₁ s₂ : PlanState}
    (selecting : Selecting config frame s s₀ C t.name item base e) (served : e.Served)
    (free : x.Free s s₀) (hel : base.ty.element? = some x.ty)
    (planned : PlansAll config frame.below s₀ s₁ (.param x) ws children)
    (h : c.selectOnce t e x (.record t.name children) s₁ = .ok (e', s₂)) :
    s₁.Grows s₂ ∧ s₂.Good ∧ Plans config frame s s₂ C (.list item ws) e' := by
  have hs : s.Grows s₁ := selecting.grows.trans planned.grows
  have emitted := selecting.emitted.grows planned.grows
  have uses := selecting.uses.trans planned.grows planned.uses
  have hx := free.grows planned.grows
  have hty : e.ty.element? = some x.ty := selecting.ty_eq ▸ hel
  unfold Planner.selectOnce at h
  obtain ⟨bound, s₃, hbind, h₁⟩ := run_bind_ok.mp h
  obtain ⟨grows, good₃, covers, rfl⟩ := bindServices_ok planned.good emitted.coherent hbind
  have boundTy : (s₃.bound e).ty = e.ty := (good₃.renames (e := e)).ty_swap emitted.coherent
  have boundEmitted := (emitted.grows grows).bound good₃
  have record : Emitted s s₃ C (.record t.name children) :=
    emitted_record fun child hc => (selecting.fields free planned child hc).grows grows
  have body : ∀ {p : Param} {final : PlanState}, s₃.Grows final → final.Good → p.ty = e.ty →
      p.id ∉ final.boundIds → Renders config final C (Wanted.view frame C.ty (.list item ws))
        (if e.ty.nullable then .letIn p (s₃.bound e) (.nullGuarded (.param p)
            (.select (.param p) x (.record t.name children)))
          else .select (s₃.bound e) x (.record t.name children)) := by
    intro p final hfinal hgood hp hpb
    have hfrom := grows.trans hfinal
    have view : (item.view frame C.ty).name = t.name := (Item.name_view _ _ _).trans selecting.name
    have element : (item.view frame C.ty).ty.element?.getD .json = x.ty := by
      rw [← selecting.ty, hel]
      rfl
    rw [← hfinal.bound covers, ← view, Wanted.view, element]
    exact .fetched (selecting.reads final (planned.grows.trans hfrom) (hfinal.covers covers)) served hel
      (planned.renders final hfrom hgood) planned.nodup (hx.grows hfrom).unbound hp hpb
  have used : s.Uses s₃ (children.flatMap (·.2.ids) ++ (s₃.bound e).ids) :=
    uses.trans grows (bindServices_uses planned.good emitted.coherent hbind)
  have select : ∀ (source : Expr), ∀ i ∈ children.flatMap (·.2.ids),
      i ∈ (Expr.select source x (.record t.name children)).ids := fun source i hi =>
    ids_of_child (List.mem_cons_of_mem _ List.mem_cons_self) (mem_ids_children t.name hi)
  rw [boundTy] at h₁
  cases hn : e.ty.nullable with
  | true =>
    rw [hn, if_pos rfl] at h₁
    obtain ⟨p, s₄, hdraw, h₂⟩ := run_bind_ok.mp h₁
    obtain ⟨hp, rfl⟩ := draw_param_ok.mp hdraw
    obtain ⟨rfl, rfl⟩ := run_pure_ok.mp h₂
    have free : p.Free s s₃.next := hp ▸ .drawn good₃ (hs.trans grows) _ _
    have hpty : p.ty = e.ty := hp ▸ rfl
    have hx₄ := (hx.grows grows).grows s₃.grows_next
    refine ⟨grows.trans s₃.grows_next, good₃.next,
      ⟨?_, used.mono fun i hi => ?_, fun final hfinal hgood => ?_⟩⟩
    · refine emitted_letIn free.above free.below free.unbound (boundTy.trans hpty.symm)
        (boundEmitted.grows s₃.grows_next) (emitted_nullGuarded (emitted_param free.below) ?_)
      refine emitted_select hx₄.above hx₄.below hx₄.unbound ?_ (emitted_param free.below)
        (record.grows s₃.grows_next)
      rw [Expr.ty, hpty]
      exact hty
    · rcases List.mem_append.mp hi with hi | hi
      · exact ids_of_child (List.mem_cons_of_mem _ List.mem_cons_self)
          (mem_ids_guarded (.inr (select _ i hi)))
      · exact ids_of_child List.mem_cons_self hi
    · have := body (s₃.grows_next.trans hfinal) hgood hpty (free.grows hfinal).unbound
      rwa [hn, if_pos rfl] at this
  | false =>
    rw [hn, if_neg (by simp)] at h₁
    obtain ⟨rfl, rfl⟩ := run_pure_ok.mp h₁
    have hx₃ := hx.grows grows
    refine ⟨grows, good₃, ⟨?_, used.mono fun i hi => ?_, fun final hfinal hgood => ?_⟩⟩
    · refine emitted_select hx₃.above hx₃.below hx₃.unbound ?_ boundEmitted record
      rw [boundTy]
      exact hty
    · rcases List.mem_append.mp hi with hi | hi
      · exact select _ i hi
      · exact ids_of_child List.mem_cons_self hi
    · have := body (p := ⟨x.id, x.name, e.ty⟩) hfinal hgood rfl (hx₃.grows hfinal).unbound
      rwa [hn, if_neg (by simp)] at this

/-- A list field is planned as the list of what is wanted of its items, or handed on as it is. -/
theorem Planner.planList_ok (built : config.build = .ok c.schema) (onSchema : c.tree.Over c.schema)
    (hchild : PlansChild config c planChild wantChild) (kept : c.Kept t.toSelected)
    (traits : t.field.Traits config c.schema.fresh fc source) (hshape : t.field.shape = .list)
    (hpass : frame.pass = .shape → t.field.hasServices = false)
    (admits : frame.Admits c.schema.fresh s t.context) (good : s.Good) {r : Option Expr}
    (h : c.planList planChild t frame s = .ok (r, s')) :
    ∃ item parts ws, c.item config t.toSelected t.lineage t.path = .ok item ∧
      c.expand frame.pass t.path t.node.children = .ok parts ∧
      parts.foldlM (addWanted fun child => wantChild frame.pass false child (t.id :: t.lineage)
        (t.path.child child.node.name)) [] = .ok ws ∧
      Outcome config frame s s' t.context t.name
        (if ws.isEmpty then if c.carries t frame then some (.leaf item) else none
          else some (.list item ws)) r := by
  obtain ⟨hflat, helement⟩ := FieldDef.ty_of_list hshape
  unfold Planner.planList at h
  obtain ⟨r', s₁, hbase, h₁⟩ := run_bind_ok.mp h
  obtain ⟨base, item, rfl, hitem, grows, good₁, based⟩ :=
    Planner.resolveBase_ok built kept good admits hbase
  have described := Planner.item_ok traits hitem
  rw [← described.ty] at hflat helement
  dsimp only at h₁
  cases hel : base.expr.ty.element? with
  | none =>
    rw [hel] at h₁
    cases h₁
  | some element =>
    rw [hel] at h₁
    dsimp only at h₁
    obtain ⟨x, s₂, hdraw, h₂⟩ := run_bind_ok.mp h₁
    obtain ⟨hx, rfl⟩ := draw_param_ok.mp hdraw
    obtain rfl : x.ty = element := hx ▸ rfl
    obtain ⟨⟨e, x'⟩, s₃, hpre, h₃⟩ := run_bind_ok.mp h₂
    have uses : s.Uses s₁ [] := Planner.resolveBase_uses hbase
    obtain ⟨rfl, a, n, rfl, arranged, selecting⟩ := Planner.selecting_ok built traits hpass admits
      described (grows.trans s₁.grows_next) good₁.next uses (based.grows s₁.grows_next) hpre
    have free : x.Free s (s₁.next.drawn n) :=
      (hx ▸ Param.Free.drawn good₁ grows _ _).grows (PlanState.grows_drawn arranged.drawn)
    have below : frame.below.Admits c.schema.fresh (s₁.next.drawn n) (.param x) := by
      refine admits_param (Nat.le_trans admits.low free.above) free.below (fun hchanged => ?_)
        (fun hchanged => (admits.changed hchanged).1)
      have unchanged : frame.contextChanged = false := hchanged
      rw [based.ty, Item.view_unchanged unchanged] at hel
      exact helement _ hel
    obtain ⟨children, s₄, hchildren, h₄⟩ := run_bind_ok.mp h₃
    obtain ⟨parts, ws, hexpand, hws, planned⟩ :=
      Planner.planChildren_ok built onSchema hchild selecting.good below hchildren
    refine ⟨item, parts, ws, hitem, hexpand, hws, ?_⟩
    have empty : List.isEmpty children = ws.isEmpty := planned.isEmpty_eq
    rw [← empty]
    dsimp only at h₄
    split at h₄
    · rename_i hempty
      obtain rfl := List.isEmpty_iff.mp hempty
      obtain ⟨rfl, rfl⟩ := run_pure_ok.mp h₄
      exact selecting.childless planned
    · rename_i hempty
      rw [if_neg hempty]
      rw [Planner.selection_eq traits.extensions, pure_bind] at h₄
      dsimp only [Option.getD_some] at h₄
      split at h₄
      · rename_i hserved
        simp only [Bool.and_eq_true, decide_eq_true_eq, Bool.not_eq_true', ← Bool.not_eq_true,
          services_isEmpty, not_not] at hserved
        obtain ⟨e', s₅, hselect, h₅⟩ := run_bind_ok.mp h₄
        obtain ⟨rfl, rfl⟩ := run_pure_ok.mp h₅
        obtain ⟨grows₅, good₅, plans⟩ := selecting.selectOnce_ok hserved.2 free hel planned hselect
        exact .some ((selecting.grows.trans planned.grows).trans grows₅) good₅ described.name plans
      · rename_i hserved
        obtain ⟨rfl, rfl⟩ := run_pure_ok.mp h₄
        exact selecting.select (selecting.not_served hserved) free hel planned

end Fields

/-! ## Nodes -/

/-- Planning a node renders what is wanted of it. -/
theorem Planner.planNode_ok (built : config.build = .ok c.schema) (onSchema : c.tree.Over c.schema)
    (depth : Nat) : PlansChild config c (c.planNode depth) (c.wanted config · depth) := by
  induction depth with
  | zero =>
    intro s s' frame child C lineage path r kept admits good h
    cases h
  | succ depth ih =>
    intro s s' frame child C lineage path r kept admits good h
    obtain ⟨described, -, -⟩ := SchemaConfig.build_ok built
    obtain ⟨fc, source, traits⟩ := (described _ kept.field).traits
    let t : Target := ⟨child, C, lineage, path⟩
    rw [Planner.planNode, Planner.planField] at h
    dsimp only
    rw [Planner.wanted]
    split at h
    · rename_i hskip
      obtain ⟨rfl, rfl⟩ := run_pure_ok.mp h
      rw [if_pos hskip]
      exact ⟨none, rfl, .none (.refl _) good (.of_eq rfl)⟩
    · rename_i hskip
      rw [if_neg hskip]
      have hpass : frame.pass = .shape → t.field.hasServices = false := fun hp => by
        simpa [hp] using hskip
      dsimp only at h
      cases hshape : child.field.shape with
      | scalar =>
        rw [hshape] at h
        have planned : c.planScalar t frame s = .ok (r, s') := h
        obtain ⟨item, hitem, outcome⟩ := Planner.planScalar_ok built kept traits admits good planned
        refine ⟨_, ?_, outcome⟩
        rw [show c.item config child lineage path = .ok item from hitem]
        rfl
      | object =>
        rw [hshape] at h
        have planned : c.planObject (c.planNode depth) t frame s = .ok (r, s') := h
        obtain ⟨item, parts, ws, hitem, hexpand, hws, outcome⟩ :=
          Planner.planObject_ok built onSchema @ih kept traits hshape hpass admits good planned
        refine ⟨_, bind_ok.mpr ⟨item, hitem, ?_⟩, outcome⟩
        rw [if_neg (by decide)]
        refine bind_ok.mpr ⟨parts, hexpand, bind_ok.mpr ⟨ws, hws, ?_⟩⟩
        split <;> rfl
      | list =>
        rw [hshape] at h
        have planned : c.planList (c.planNode depth) t frame s = .ok (r, s') := h
        obtain ⟨item, parts, ws, hitem, hexpand, hws, outcome⟩ :=
          Planner.planList_ok built onSchema @ih kept traits hshape hpass admits good planned
        refine ⟨_, bind_ok.mpr ⟨item, hitem, ?_⟩, outcome⟩
        rw [if_neg (by decide)]
        refine bind_ok.mpr ⟨parts, hexpand, bind_ok.mpr ⟨ws, hws, ?_⟩⟩
        split <;> rfl

end FieldPlan
