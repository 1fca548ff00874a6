import FieldPlan.Proofs.Planning.Divided
import FieldPlan.Proofs.Wanted.Plannable

/-!
# What can be planned is planned

* `Planner.preSelection_succeeds` : values that can be arranged are arranged;
* `bindServices_succeeds` : services that are registered are bound.
-/

namespace FieldPlan

open Expr

open Extension.Paging (addSkip addTake countArgument checkTake)

open Extension.Sort (keyField addKey addKeys)

variable {config : SchemaConfig} {c : Planner}

/-! ## Slices -/

theorem countArgument_of_givenCount {site : Site} {name : String} {n : Option Nat}
    (h : givenCount (site.arguments.find? name) = some n) : countArgument site name = .ok n := by
  unfold countArgument
  generalize site.arguments.find? name = given at h
  split
  · cases h
    rfl
  · cases h
    rfl
  · rename_i v hnull
    have count : givenCount (some v) = v.toNat?.map some := by
      cases v <;> first | rfl | exact absurd rfl hnull
    rw [count] at h
    obtain ⟨k, hk, rfl⟩ := Option.map_eq_some_iff.mp h
    rw [hk]
    rfl

theorem paging_succeeds {p : PagingConfig} {site : Site} (base : Expr) (item : Option Param) (n : Nat)
    (h : (p.slice? site.arguments).isSome = true) :
    Succeeds (Extension.Paging.preSelection p.defaultTake p.maxTake site base item) n := by
  unfold Extension.Paging.preSelection
  split
  · exact .pure _ _
  · obtain ⟨slice, h⟩ := Option.isSome_iff_exists.mp h
    obtain ⟨skip, hskip, h⟩ := Option.bind_eq_some_iff.mp h
    obtain ⟨given, hgiven, h⟩ := Option.bind_eq_some_iff.mp h
    have checked : checkTake site (given <|> p.defaultTake <|> p.maxTake) p.maxTake = .ok () := by
      unfold checkTake
      generalize (given <|> p.defaultTake <|> p.maxTake) = take at h
      cases take with
      | none => rfl
      | some k =>
        cases hmax : p.maxTake with
        | none => rfl
        | some m =>
          rw [hmax] at h
          dsimp only at h ⊢
          split at h
          · cases h
          · rw [if_neg ‹_›]
            rfl
    refine ⟨(addTake (addSkip base skip) (given <|> p.defaultTake <|> p.maxTake), item), n,
      run_lift_ok.mpr ⟨?_, rfl⟩⟩
    exact bind_ok.mpr ⟨skip, countArgument_of_givenCount hskip, bind_ok.mpr ⟨given,
      countArgument_of_givenCount hgiven, bind_ok.mpr ⟨(), checked, rfl⟩⟩⟩

/-! ## Sort keys -/

/-- A field that needs no service does not read its arguments. -/
theorem Field.Traits.argumentParam_eq {fresh : Nat} {f : Field} {fc : FieldConfig} {source : Resolve}
    (h : f.Traits config fresh fc source) (hs : source.isService = false) : f.argumentParam = none := by
  have unread : Param.arguments.id ∉ f.resolve.ids := by
    rw [h.resolve]
    have plain := h.plain
    cases source with
    | member path =>
      rw [Resolve.exprOver, Expr.ids_memberChain]
      have hne : Param.arguments.id ≠ f.param.id := Nat.ne_of_lt h.above
      simpa [Expr.ids, subterms, own?, bound?] using hne
    | service name method args => cases hs
    | constant v => simp [Resolve.exprOver, Expr.ids, subterms, own?, bound?]
    | expr e => exact plain.elim
  rw [h.argumentParam, if_neg]
  intro hm
  obtain ⟨q, hq, hid⟩ := mentions_iff.mp hm
  exact unread (mem_ids.mpr ⟨_, hq, q, rfl, hid⟩)

section Keys

variable {site : Site} (built : config.build = .ok c.schema)
  (hsite : site.fieldOf = fun owner name => (c.schema.field? owner name).map (·.toFieldDef))
  {entity : String}

include built hsite

theorem keyField_ok {key : String} {source : Resolve} (found : config.source? entity key = some source)
    (hs : source.isService = false) : ∃ f, keyField site entity key = .ok f := by
  obtain ⟨f, fc, hf, -, -, -, traits⟩ := SchemaConfig.exists_field built found
  have own : (!f.hasServices && f.argumentParam.isNone) = true := by
    rw [traits.hasServices_eq, hs, traits.argumentParam_eq hs]
    rfl
  refine ⟨f.toFieldDef, ?_⟩
  unfold keyField
  rw [hsite]
  dsimp only
  rw [hf, Option.map_some]
  exact if_pos own

theorem addKeys_succeeds {element : Ty} {ks : List Extension.Sort.Key}
    (known : ∀ key ∈ ks, ∃ source, config.source? entity key.1 = some source ∧
      source.isService = false) (list : Expr) (first : Bool) (n : Nat) :
    Succeeds (addKeys site element entity list first ks) n := by
  induction ks generalizing list first n with
  | nil => exact .pure _ _
  | cons k ks ih =>
    obtain ⟨⟨source, found, hs⟩, hks⟩ := List.forall_mem_cons.mp known
    obtain ⟨f, hf⟩ := keyField_ok built hsite found hs
    have step : ∃ e n', addKey site element entity list first k n = .ok (e, n') :=
      Succeeds.bind (run_lift_ok.mpr ⟨hf, rfl⟩) (.bind rfl (.bind rfl (.pure _ _)))
    obtain ⟨e, n', he⟩ := step
    exact .bind he (ih hks e false n')

theorem sort_succeeds {default : Dict Direction} {order : List (String × Direction)} {base : Expr}
    (h : sortOrder? default site.arguments = some order)
    (sorted : order ≠ [] → ∃ element entity, base.ty.element? = some element ∧
      element.entityName = some entity ∧ ∀ key ∈ order, ∃ source,
        config.source? entity key.1 = some source ∧ source.isService = false)
    (item : Option Param) (n : Nat) :
    Succeeds (Extension.Sort.preSelection default site base item) n := by
  unfold Extension.Sort.preSelection
  split
  · exact .pure _ _
  · have keys : Extension.Sort.keys default (site.arguments.find? "sort") = .ok order := by
      unfold sortOrder? at h
      generalize Extension.Sort.keys default (site.arguments.find? "sort") = keys at h ⊢
      cases keys with
      | ok ks => exact congrArg Except.ok (Option.some.inj h)
      | error e => cases h
    refine .bind (run_lift_ok.mpr ⟨keys, rfl⟩) ?_
    cases order with
    | nil => exact .pure _ _
    | cons k ks =>
      obtain ⟨element, entity, hel, hen, known⟩ := sorted (List.cons_ne_nil _ _)
      dsimp only
      rw [hel]
      dsimp only
      rw [hen]
      obtain ⟨list, n', hlist⟩ : Succeeds (addKeys site element entity base true (k :: ks)) n :=
        addKeys_succeeds built hsite known base true n
      exact .bind hlist (.pure _ _)

end Keys

/-! ## Extensions -/

theorem Planner.runHook_succeeds {α : Type} (path : Path) (x : Extension) {hook : Hook α}
    {s : PlanState} (h : Succeeds hook s.fresh) : Succeeds (runHook path x hook) s := by
  obtain ⟨a, n, h⟩ := h
  refine ⟨a, { s with fresh := n }, ?_⟩
  unfold Planner.runHook
  rw [show hook.run s.fresh = .ok (a, n) from h]

/-- A base expression is arranged as its arguments ask for. -/
theorem Planner.arrange_succeeds (built : config.build = .ok c.schema) {site : Site}
    (hsite : site.fieldOf = fun owner name => (c.schema.field? owner name).map (·.toFieldDef))
    {t : Target} {fc : FieldConfig} (hx : t.field.extensions = fc.extensions) {base : Expr}
    {a : Arrangement} (ha : fc.arrangement? site.arguments = some a)
    (sorted : a.order ≠ [] → ∃ element entity, base.ty.element? = some element ∧
      element.entityName = some entity ∧ ∀ key ∈ a.order, ∃ source,
        config.source? entity key.1 = some source ∧ source.isService = false)
    (item : Option Param) (s : PlanState) : Succeeds (preSelection t site base item) s := by
  unfold Planner.preSelection
  rw [hx]
  cases fc with
  | short ty => exact .pure _ _
  | full d =>
    obtain ⟨order, horder, ha⟩ := Option.bind_eq_some_iff.mp ha
    obtain ⟨⟨skip, take⟩, hslice, ha⟩ := Option.bind_eq_some_iff.mp ha
    cases ha
    rw [FieldConfig.extensions, FieldDetail.extensions, List.foldlM_append]
    have sorting : Succeeds ((d.sort.map Extension.sort).toList.foldlM
        (fun (acc : Expr × Option Param) x =>
          runHook t.path x (x.preSelection site acc.1 acc.2)) (base, item)) s := by
      cases hsort : d.sort with
      | none => exact .pure _ _
      | some default =>
        rw [hsort] at horder
        obtain ⟨r, s', hr⟩ := runHook_succeeds t.path (.sort default)
          (sort_succeeds built hsite horder sorted item s.fresh)
        exact .bind hr (.pure _ _)
    obtain ⟨r, s', hr⟩ := sorting
    refine .bind hr ?_
    cases hpaging : d.paging with
    | none => exact .pure _ _
    | some p =>
      rw [hpaging] at hslice
      obtain ⟨r', s'', hr'⟩ := runHook_succeeds t.path
        (.paging p.defaultTake p.maxTake)
        (paging_succeeds (p := p) r.1 r.2 s'.fresh (Option.isSome_iff_exists.mpr ⟨_, hslice⟩))
      exact .bind hr' (.pure _ _)

/-- A value that can be planned is arranged as its arguments ask for. -/
theorem Planner.preSelection_succeeds (built : config.build = .ok c.schema) {frame : Frame}
    {t : Target} {fc : FieldConfig} (hx : t.field.extensions = fc.extensions) {item : Item}
    {base : Base} (hitem : item.arrangement = fc.arrangement? item.arguments) {s : PlanState}
    (based : Based c.schema.fresh frame s t.context item base)
    (able : (item.view frame t.context.ty).Plannable config c.registered) (x : Option Param) :
    Succeeds (preSelection t (c.site t base frame) base.expr x) s := by
  cases hm : base.materialized with
  | true =>
    have kept : (c.site t base frame).materialized = true := hm
    rw [Planner.keep_materialized hx kept]
    exact .pure _ _
  | false =>
    obtain ⟨a, ha, sorted⟩ := able.arranged
    rw [based.arrangement, hm, if_neg Bool.false_ne_true, hitem, ← based.arguments] at ha
    have fields : (c.site t base frame).fieldOf =
      fun owner name => (c.schema.field? owner name).map (·.toFieldDef) := rfl
    exact arrange_succeeds built fields hx ha (based.ty ▸ sorted) x s

/-! ## Services -/

def Expr.Registered (registered : Option (ServiceName → Bool)) (e : Expr) : Prop :=
  ∀ r, registered = some r → ∀ name ∈ e.services, r name = true

def Resolve.Registered (registered : Option (ServiceName → Bool)) (source : Resolve) : Prop :=
  ∀ name method args, source = .service name method args → ∀ r, registered = some r → r name = true

section Services

variable {registered : Option (ServiceName → Bool)} {C e : Expr}

theorem Expr.registered_of_not_served (h : ¬e.Served) : e.Registered registered := by
  intro r _ name hname
  rw [services_eq_nil.mpr h] at hname
  cases hname

theorem Expr.Input.registered_of {Record : Param → Prop} {a : ServiceArg} (h : Input Record C a e)
    (hC : C.Registered registered) : e.Registered registered := by
  cases h with
  | member chain => exact fun r hr name hname => hC r hr name (chain.mem_services.mp hname)
  | argument name _ =>
    refine registered_of_not_served ?_
    rw [served_iff]
    simp [children, not_served_param]
  | constant v t =>
    refine registered_of_not_served ?_
    rw [served_iff]
    simp [children]

theorem Expr.Own.registered_of {Record : Param → Prop} {source : Resolve} (h : Own Record C source e)
    (hC : C.Registered registered) (hs : source.Registered registered) : e.Registered registered := by
  cases h with
  | member chain => exact fun r hr name hname => hC r hr name (chain.mem_services.mp hname)
  | @service service method t args es inputs =>
    intro r hr name hname
    obtain h | ⟨child, hchild, hname⟩ := mem_services_iff.mp hname
    · cases h
    · rcases List.mem_cons.mp hchild with rfl | hchild
      · obtain h | ⟨child, hchild, -⟩ := mem_services_iff.mp hname
        · cases h
          exact hs _ method args rfl r hr
        · cases hchild
      · obtain ⟨a, -, input⟩ := exists_of_forall₂ inputs hchild
        exact input.registered_of hC r hr name hname
  | constant v t =>
    refine registered_of_not_served ?_
    rw [served_iff]
    simp [children]

theorem Arranges.registered_of {base : Expr} {a : Arrangement} (h : Arranges config base a e)
    (hb : base.Registered registered) : e.Registered registered :=
  fun r hr name hname => hb r hr name (h.mem_services.mp hname)

theorem serviceParam_succeeds (name : ServiceName) (s : PlanState) :
    Succeeds (serviceParam name) s := by
  unfold serviceParam
  refine .bind rfl ?_
  split
  · exact .pure _ _
  · exact .bind rfl (.bind rfl (.pure _ _))

/-- Services that are registered are bound. -/
theorem bindServices_succeeds (path : Path) (h : e.Registered registered) (s : PlanState) :
    Succeeds (bindServices registered path e) s := by
  have handles : ∀ (names : List ServiceName) s, Succeeds (names.mapM fun name => do
      let p ← serviceParam name
      pure (Expr.service name, Expr.param p)) s := by
    intro names
    induction names with
    | nil => exact fun s => .pure _ _
    | cons name names ih =>
      intro s
      rw [List.mapM_cons]
      obtain ⟨p, s', hp⟩ := serviceParam_succeeds name s
      obtain ⟨pairs, s'', hpairs⟩ := ih s'
      exact .bind (run_bind_ok.mpr ⟨p, s', hp, rfl⟩) (.bind hpairs (.pure _ _))
  unfold bindServices
  split
  · exact .pure _ _
  · have none : (registered.bind fun r => e.services.find? fun name => !r name) = none := by
      cases registered with
      | none => rfl
      | some r => exact List.find?_eq_none.mpr fun name hname => by simp [h r rfl name hname]
    rw [none]
    refine .bind rfl ?_
    unfold bindHandles
    obtain ⟨pairs, s', hpairs⟩ := handles e.services
      { s with services := e.services.foldl addName s.services }
    exact .bind hpairs ⟨_, _, rfl⟩

end Services

namespace Planner

variable {t : Target} {item : Item}

/-- The expression of a field's own value, where its arguments are valid. -/
theorem resolveBase_succeeds (frame : Frame) (standard : c.schema.Standard) (kept : c.Kept t.toSelected)
    (hitem : c.item config t.toSelected t.lineage t.path = .ok item) (s : PlanState) :
    Succeeds (c.resolveBase t frame) s := by
  obtain ⟨arguments, harguments, -⟩ := bind_ok.mp hitem
  obtain ⟨path, hkeep⟩ := kept.directed
  obtain ⟨-, direct⟩ := keep_standard standard hkeep
  have context : Succeeds (c.contextExpr t frame) s := by
    unfold Planner.contextExpr Planner.materializedExpr
    split
    · split
      · exact .pure _ _
      · split
        · exact .pure _ _
        · exact ⟨_, _, rfl⟩
    · exact ⟨_, _, rfl⟩
  obtain ⟨⟨e, materialized⟩, s₁, hcontext⟩ := context
  have bound : Succeeds (bindArguments t arguments e) s₁ := by
    unfold Planner.bindArguments
    split
    · exact .pure _ _
    · split
      · exact .bind rfl (.bind rfl ⟨_, _, rfl⟩)
      · exact .pure _ _
  obtain ⟨e', s₂, hbound⟩ := bound
  unfold Planner.resolveBase
  refine .bind (run_lift_ok.mpr ⟨harguments, rfl⟩) (.bind hcontext (.bind hbound ?_))
  rw [direct, pure_bind]
  exact .pure _ _

end Planner

/-! ## Nodes -/

/-- A way of planning nodes below a root field that plans what is wanted of them, if it can be planned.
-/
def SucceedsChild (config : SchemaConfig) (c : Planner) (planChild : Planner.PlanChild)
    (wantChild : Pass → Bool → Selected → List NodeId → Path → Except PlanError (Option Wanted)) :
    Prop :=
  ∀ {s : PlanState} {frame : Frame} {child : Selected} {C : Expr} {lineage : List NodeId} {path : Path}
    {r : Option Wanted}, c.Reaches child → c.Kept child →
    (frame.pass = .shape → child.field.hasServices = false) → frame.isRoot = false →
    frame.Admits c.schema.fresh s C → s.Good → C.Registered c.registered →
    wantChild frame.pass false child lineage path = .ok r →
    (∀ w, r = some w → (w.view frame C.ty).Plannable config c.registered) →
    Succeeds (planChild child C lineage path frame) s

namespace Planner

theorem mapM_draw_succeeds {α β : Type} (f : α → Fresh β) (as : List α) (s : PlanState) :
    Succeeds (as.mapM fun a => draw (f a)) s := by
  induction as generalizing s with
  | nil => exact .pure _ _
  | cons a as ih =>
    rw [List.mapM_cons]
    obtain ⟨bs, s', hbs⟩ := ih { s with fresh := ((f a).run s.fresh).2 }
    exact .bind rfl (.bind hbs (.pure _ _))

theorem foldlM_addWanted_subset {want : Selected → Except PlanError (Option Wanted)}
    {parts : List Contribution} {ws ws' : List Wanted} (h : parts.foldlM (addWanted want) ws = .ok ws') :
    ∀ w ∈ ws, w ∈ ws' := by
  refine foldlM_ok (fun _ ws' => ∀ w ∈ ws, w ∈ ws') h (fun _ h => h) ?_
  intro _ part _ us us' _ hus hadd w hw
  obtain rfl | ⟨u, rfl, -⟩ := addWanted_ok hadd
  · exact hus w hw
  · exact List.mem_append_left _ (hus w hw)

section Fields

variable {frame : Frame} {t : Target} {item : Item} {s : PlanState} {planChild : PlanChild}
  {wantChild : Pass → Bool → Selected → List NodeId → Path → Except PlanError (Option Wanted)}
  {fc : FieldConfig} {source : Resolve}

/-- The children of a node are planned, if what is wanted of them can be planned. -/
theorem planChildren_succeeds (built : config.build = .ok c.schema) (onSchema : c.tree.Over c.schema)
    (hchild : PlansChild config c planChild wantChild)
    (each : SucceedsChild config c planChild wantChild) (reached : c.Reaches t.toSelected) {C : Expr}
    (admits : frame.below.Admits c.schema.fresh s C) (good : s.Good) (context : C.Registered c.registered)
    {parts : List Contribution} (hexpand : c.expand frame.pass t.path t.node.children = .ok parts)
    {ws : List Wanted} (hws : parts.foldlM (addWanted fun child => wantChild frame.pass false child
      (t.id :: t.lineage) (t.path.child child.node.name)) [] = .ok ws)
    (able : Wanted.PlannableAll config c.registered (Wanted.viewAll frame.below C.ty ws)) :
    Succeeds (c.planChildren planChild t C frame) s := by
  obtain ⟨-, standard, -⟩ := SchemaConfig.build_ok built
  rw [Wanted.viewAll_eq, Wanted.plannableAll_iff, List.forall_mem_map] at able
  have admitted := expand_sound standard onSchema hexpand
  unfold Planner.planChildren
  refine .bind (run_lift_ok.mpr ⟨hexpand, rfl⟩) ?_
  suffices rest : ∀ rest done children s' us, parts = done ++ rest →
      PlansAll config frame.below s s' C us children →
      rest.foldlM (addWanted fun child => wantChild frame.pass false child (t.id :: t.lineage)
        (t.path.child child.node.name)) us = .ok ws →
      Succeeds (rest.foldlM (addContribution planChild t C { frame with isRoot := false }) children)
        s' from rest parts [] [] s [] rfl (.start good) hws
  intro rest
  induction rest with
  | nil => exact fun _ _ _ _ _ _ _ => .pure _ _
  | cons part rest ih =>
    intro done children s' us hsplit planned hfold
    have hpart : part ∈ parts := by simp [hsplit]
    rw [List.foldlM_cons] at hfold ⊢
    obtain ⟨us', hadd, hrest⟩ := bind_ok.mp hfold
    have step : Succeeds (addContribution planChild t C { frame with isRoot := false } children part)
        s' := by
      unfold addContribution
      cases part with
      | extracted field part =>
        dsimp only
        split
        · exact .pure _ _
        · exact ⟨_, _, rfl⟩
      | node child =>
        unfold addWanted at hadd
        dsimp only at hadd ⊢
        rw [planned.contains_iff]
        split
        · exact .pure _ _
        · rename_i hnew
          rw [if_neg hnew] at hadd
          obtain ⟨r, hr, hadd⟩ := bind_ok.mp hadd
          obtain ⟨reachedA, unserved⟩ := reaches_of_expand reached hexpand hpart
          have able' : ∀ w, r = some w → (w.view frame.below C.ty).Plannable config c.registered := by
            rintro w rfl
            cases hadd
            exact able w (foldlM_addWanted_subset hrest w (List.mem_append_right _ List.mem_cons_self))
          obtain ⟨e, s'', he⟩ : Succeeds (planChild child C (t.id :: t.lineage)
              (t.path.child child.node.name) frame.below) s' :=
            each reachedA (admitted _ hpart) unserved rfl (admits.grows planned.grows) planned.good
              context hr able'
          refine .bind he ?_
          split <;> exact .pure _ _
    obtain ⟨children', s'', hstep⟩ := step
    refine .bind hstep ?_
    obtain ⟨us'', hadd', planned'⟩ :=
      addContribution_ok built hchild admits planned (admitted part hpart) hstep
    obtain rfl : us' = us'' := Except.ok.inj (hadd.symm.trans hadd')
    exact ih (done ++ [part]) children' s'' us' (by simp [hsplit]) planned' hrest

section Kinds

variable (built : config.build = .ok c.schema) (kept : c.Kept t.toSelected)
  (admits : frame.Admits c.schema.fresh s t.context) (good : s.Good)
  (context : t.context.Registered c.registered)
  (hitem : c.item config t.toSelected t.lineage t.path = .ok item)

include built kept admits good context hitem

/-- The expression of a field's own value, with the services that it calls registered. -/
theorem base_succeeds (able : (item.view frame t.context.ty).source.Registered c.registered) :
    ∃ base s', c.resolveBase t frame s = .ok (some base, s') ∧ s.Grows s' ∧ s'.Good ∧
      Based c.schema.fresh frame s' t.context item base ∧ base.expr.Registered c.registered := by
  obtain ⟨-, standard, -⟩ := SchemaConfig.build_ok built
  obtain ⟨r, s', hbase⟩ := resolveBase_succeeds frame standard kept hitem s
  obtain ⟨base, item', rfl, hitem', grows, good', based⟩ := resolveBase_ok built kept good admits hbase
  obtain rfl : item' = item := Except.ok.inj (hitem'.symm.trans hitem)
  exact ⟨base, s', hbase, grows, good', based, (based.own s' (.refl s')).registered_of context able⟩

theorem planScalar_succeeds (traits : t.field.Traits config c.schema.fresh fc source)
    (able : (item.view frame t.context.ty).source.Registered c.registered) :
    Succeeds (c.planScalar t frame) s := by
  obtain ⟨base, s', hbase, -, -, -, registered⟩ :=
    base_succeeds built kept admits good context hitem able
  obtain ⟨e, s'', he⟩ := bindServices_succeeds t.path registered s'
  unfold Planner.planScalar
  refine .bind hbase ?_
  dsimp only
  rw [scalarExpression_eq traits.extensions, pure_bind]
  exact .bind he (.pure _ _)

end Kinds

theorem wrapOnce_succeeds (frame : Frame) (hx : t.field.extensions = fc.extensions) {e : Expr}
    (h : e.Registered c.registered) (site : Site) (children : Children) (s : PlanState) :
    Succeeds (c.wrapOnce t site e children frame) s := by
  obtain ⟨bound, s₁, hbound⟩ := bindServices_succeeds t.path h s
  unfold Planner.wrapOnce
  refine .bind hbound (.bind rfl ?_)
  obtain ⟨fields, s₂, hfields⟩ := mapM_draw_succeeds (fun child : String × Expr => do
      let e' ← child.2.replaceAll [(e, .param ⟨s₁.fresh, t.name, bound.ty⟩),
        (bound, .param ⟨s₁.fresh, t.name, bound.ty⟩)]
      let e' ← if frame.contextChanged then
          e'.replaceParamsByType e.ty (.param ⟨s₁.fresh, t.name, bound.ty⟩) else pure e'
      pure (child.1, e')) children { s₁ with fresh := s₁.fresh + 1 }
  refine .bind hfields ?_
  rw [selection_eq hx, pure_bind]
  exact .pure _ _

theorem selectOnce_succeeds {list : Expr} (h : list.Registered c.registered) (item : Param)
    (body : Expr) (s : PlanState) : Succeeds (c.selectOnce t list item body) s := by
  obtain ⟨bound, s₁, hbound⟩ := bindServices_succeeds t.path h s
  unfold Planner.selectOnce
  refine .bind hbound ?_
  split
  · exact .bind rfl (.pure _ _)
  · exact .pure _ _

section Kinds

variable (built : config.build = .ok c.schema) (onSchema : c.tree.Over c.schema)
  (hchild : PlansChild config c planChild wantChild)
  (each : SucceedsChild config c planChild wantChild) (reached : c.Reaches t.toSelected)
  (kept : c.Kept t.toSelected) (traits : t.field.Traits config c.schema.fresh fc source)
  (admits : frame.Admits c.schema.fresh s t.context) (good : s.Good)
  (context : t.context.Registered c.registered)
  (hitem : c.item config t.toSelected t.lineage t.path = .ok item)
  (able : (item.view frame t.context.ty).Plannable config c.registered)
  {parts : List Contribution} (hexpand : c.expand frame.pass t.path t.node.children = .ok parts)
  {ws : List Wanted} (hws : parts.foldlM (addWanted fun child => wantChild frame.pass false child
    (t.id :: t.lineage) (t.path.child child.node.name)) [] = .ok ws)

include built onSchema hchild each reached kept traits admits good context hitem able hexpand hws

/-- An object field is planned, if its value and what is wanted of that can be planned. -/
theorem planObject_succeeds (hshape : t.field.shape = .object)
    (hpass : frame.pass = .shape → t.field.hasServices = false)
    (ables : Wanted.PlannableAll config c.registered
      (Wanted.viewAll frame.below (item.view frame t.context.ty).ty ws)) :
    Succeeds (c.planObject planChild t frame) s := by
  obtain ⟨hflat, hobject, -⟩ := FieldDef.ty_of_object hshape
  obtain ⟨base, s₁, hbase, grows, good₁, based, registered⟩ :=
    base_succeeds built kept admits good context hitem able.registered
  have described := item_ok traits hitem
  rw [← described.ty] at hflat hobject
  obtain ⟨⟨e, x⟩, s₂, hpre⟩ := preSelection_succeeds built traits.extensions described.arrangement based
    able none (s := s₁)
  obtain ⟨-, hs₂, a, ha, arranged⟩ := preSelection_ok built traits.extensions
    described.arrangement (admits.grows grows).low based hpre
  have unserved : frame.pass = .shape → ¬base.expr.Served := fun hp =>
    based.not_served traits (hpass hp) described.source admits hp
  have below := arranged.admits good₁ based admits grows hflat hobject unserved
  have good₂ := good₁.drawn arranged.drawn
  have registeredE := arranged.arranges.registered_of registered
  rw [show s₁.drawn s₂.fresh = s₂ from hs₂.symm] at below good₂
  have ty : e.ty = (item.view frame t.context.ty).ty := arranged.arranges.ty_eq.trans based.ty
  obtain ⟨children, s₃, hchildren⟩ := planChildren_succeeds built onSchema hchild each reached below
    good₂ registeredE hexpand hws (ty ▸ ables)
  unfold Planner.planObject
  refine .bind hbase (.bind hpre (.bind hchildren ?_))
  split
  · exact .pure _ _
  · split
    · obtain ⟨e', s₄, hwrap⟩ := wrapOnce_succeeds frame traits.extensions registeredE
        (c.site t base frame) children s₃
      exact .bind hwrap (.pure _ _)
    · rw [selection_eq traits.extensions, pure_bind]
      exact .pure _ _

/-- A list field is planned, if its value and what is wanted of its items can be planned. -/
theorem planList_succeeds (hshape : t.field.shape = .list) {element : Ty}
    (hel : (item.view frame t.context.ty).ty.element? = some element)
    (ables : Wanted.PlannableAll config c.registered (Wanted.viewAll frame.below element ws)) :
    Succeeds (c.planList planChild t frame) s := by
  obtain ⟨hflat, helement⟩ := FieldDef.ty_of_list hshape
  obtain ⟨base, s₁, hbase, grows, good₁, based, registered⟩ :=
    base_succeeds built kept admits good context hitem able.registered
  have described := item_ok traits hitem
  rw [← described.ty] at hflat helement
  rw [← based.ty] at hel
  have based₁ := based.grows s₁.grows_next
  have grows₁ := grows.trans s₁.grows_next
  obtain ⟨⟨e, x⟩, s₂, hpre⟩ := preSelection_succeeds built traits.extensions described.arrangement
    based₁ able (some ⟨s₁.fresh, t.name, element⟩) (s := s₁.next)
  obtain ⟨hx, hs₂, a, ha, arranged⟩ := preSelection_ok built traits.extensions
    described.arrangement (admits.grows grows₁).low based₁ hpre
  have hx : x = some ⟨s₁.fresh, t.name, element⟩ := hx
  subst hx
  have good₂ := good₁.next.drawn arranged.drawn
  have hn : s₁.fresh < s₂.fresh := arranged.drawn
  have below : frame.below.Admits c.schema.fresh s₂ (.param ⟨s₁.fresh, t.name, element⟩) := by
    refine admits_param (admits.grows grows).low hn (fun hchanged => ?_)
      fun hchanged => (admits.changed hchanged).1
    have unchanged : frame.contextChanged = false := hchanged
    rw [based.ty, Item.view_unchanged unchanged] at hel
    exact helement element hel
  have registeredE := arranged.arranges.registered_of registered
  rw [show s₁.next.drawn s₂.fresh = s₂ from hs₂.symm] at good₂
  obtain ⟨children, s₃, hchildren⟩ := planChildren_succeeds built onSchema hchild each reached below
    good₂ (registered_of_not_served (not_served_param _)) hexpand hws ables
  unfold Planner.planList
  refine .bind hbase ?_
  dsimp only
  rw [hel]
  dsimp only
  refine .bind rfl (.bind hpre (.bind hchildren ?_))
  split
  · exact .pure _ _
  · rw [selection_eq traits.extensions, pure_bind]
    dsimp only
    split
    · obtain ⟨e', s₄, hselect⟩ := selectOnce_succeeds (t := t) registeredE _ _ s₃
      exact .bind hselect (.pure _ _)
    · exact .pure _ _

end Kinds

end Fields

/-- If what is wanted of an object or list field can be planned, so can the value of the field and what is
gathered of its objects. -/
theorem Wants.plannable {depth : Nat} {frame : Frame} {child : Selected} {lineage : List NodeId}
    {path : Path} {r : Option Wanted} {τ : Ty}
    (wants : Wants config c frame.pass depth frame.isRoot child lineage path r)
    {fc : FieldConfig} {source : Resolve} (traits : child.field.Traits config c.schema.fresh fc source)
    (composite : child.field.shape ≠ .scalar)
    (unserved : frame.pass = .shape → child.field.hasServices = false)
    (changed : frame.contextChanged = true → frame.pass = .services)
    (able : ∀ w, r = some w → (w.view frame τ).Plannable config c.registered)
    (bare : r = none → frame.contextChanged = false ∧
      ∀ item, c.item config child lineage path = .ok item → item.Plannable config c.registered) :
    ∃ item ws, Gathers config c frame.pass depth child lineage path item ws ∧
      (item.view frame τ).Plannable config c.registered ∧
      (child.field.shape = .object → Wanted.PlannableAll config c.registered
        (Wanted.viewAll frame.below (item.view frame τ).ty ws)) ∧
      (child.field.shape = .list → ∃ element, (item.view frame τ).ty.element? = some element ∧
        Wanted.PlannableAll config c.registered (Wanted.viewAll frame.below element ws)) := by
  have empty : ∀ {item}, Gathers config c frame.pass depth child lineage path item [] →
      frame.contextChanged = false → child.field.shape = .list →
        ∃ element, (item.view frame τ).ty.element? = some element ∧ True := by
    intro item gathers unchanged hshape
    obtain ⟨element, hel, -⟩ := FieldDef.element_of_list hshape
    rw [Item.view_unchanged unchanged, (item_ok traits gathers.found).ty]
    exact ⟨element, hel, trivial⟩
  cases wants with
  | served shaping served => cases (unserved shaping).symm.trans served
  | scalar _ _ scalar => exact absurd scalar composite
  | carried gathers carries =>
    have unchanged : frame.contextChanged = false := Bool.eq_false_iff.mpr fun hc => by
      cases (keepsWhole_iff.mp carries).1.symm.trans (changed hc)
    exact ⟨_, [], gathers, able _ rfl, fun _ => trivial, empty gathers unchanged⟩
  | nothing gathers =>
    obtain ⟨unchanged, plannable⟩ := bare rfl
    refine ⟨_, [], gathers, ?_, fun _ => trivial, empty gathers unchanged⟩
    rw [Item.view_unchanged unchanged]
    exact plannable _ gathers.found
  | object gathers _ hshape =>
    obtain ⟨own, all⟩ := able _ rfl
    refine ⟨_, _, gathers, own, fun _ => all, fun h => ?_⟩
    cases hshape.symm.trans h
  | list gathers _ hshape =>
    obtain ⟨own, isList, all⟩ := able _ rfl
    obtain ⟨element, hel⟩ := Option.isSome_iff_exists.mp isList
    rw [hel] at all
    refine ⟨_, _, gathers, own, fun h => ?_, fun _ => ⟨element, hel, all⟩⟩
    cases hshape.symm.trans h

/-- A node is planned, if its value and what is wanted of it can be planned. -/
theorem planNode_succeeds (built : config.build = .ok c.schema) (onSchema : c.tree.Over c.schema)
    (forward : c.tree.Forward) (divides : c.Divides) (depth : Nat) {s : PlanState} {frame : Frame}
    {child : Selected} {C : Expr} {lineage : List NodeId} {path : Path} {r : Option Wanted}
    (reached : c.Reaches child) (kept : c.Kept child)
    (unserved : frame.pass = .shape → child.field.hasServices = false)
    (admits : frame.Admits c.schema.fresh s C) (good : s.Good) (context : C.Registered c.registered)
    (hr : c.wanted config frame.pass depth frame.isRoot child lineage path = .ok r)
    (able : ∀ w, r = some w → (w.view frame C.ty).Plannable config c.registered)
    (bare : r = none → frame.contextChanged = false ∧
      ∀ item, c.item config child lineage path = .ok item → item.Plannable config c.registered) :
    Succeeds (c.planNode depth child C lineage path frame) s := by
  obtain ⟨described, -, -⟩ := SchemaConfig.build_ok built
  induction depth generalizing s frame child C lineage path r with
  | zero => cases hr
  | succ depth ih =>
    have each : SucceedsChild config c (c.planNode depth) (c.wanted config · depth) := by
      intro s frame child C lineage path r reached kept unserved hroot admits good context hr able
      have some := wanted_isSome built onSchema forward divides depth reached kept unserved hr
      exact ih reached kept unserved admits good context (hroot ▸ hr) able
        fun none => by rw [none] at some; cases some
    have hchild : PlansChild config c (c.planNode depth) (c.wanted config · depth) :=
      planNode_ok built onSchema depth
    obtain ⟨fc, source, traits⟩ := (described _ kept.field).traits
    let t : Target := ⟨child, C, lineage, path⟩
    have wants := wanted_iff.mp hr
    rw [Planner.planNode, Planner.planField, if_neg (by simpa using unserved)]
    dsimp only
    cases hshape : child.field.shape with
    | scalar =>
      cases wants with
      | served shaping served => cases (unserved shaping).symm.trans served
      | @scalar item _ hitem _ =>
        have own : Item.Plannable config c.registered
            (Item.view frame C.ty { item with arrangement := some {} }) := able _ rfl
        rw [Item.view_plain] at own
        exact planScalar_succeeds (t := t) built kept admits good context hitem traits own.registered
      | carried gathers | nothing gathers | object gathers | list gathers =>
        exact absurd hshape gathers.composite
    | object =>
      obtain ⟨item, ws, gathers, own, all, -⟩ := wants.plannable traits (by simp [hshape]) unserved
        (fun hc => (admits.changed hc).1) able bare
      obtain ⟨parts, hparts, hws⟩ := gathers.gathered
      exact planObject_succeeds (t := t) built onSchema @hchild @each reached kept traits admits good
        context gathers.found own hparts hws hshape unserved (all hshape)
    | list =>
      obtain ⟨item, ws, gathers, own, -, all⟩ := wants.plannable traits (by simp [hshape]) unserved
        (fun hc => (admits.changed hc).1) able bare
      obtain ⟨element, hel, all⟩ := all hshape
      obtain ⟨parts, hparts, hws⟩ := gathers.gathered
      exact planList_succeeds (t := t) built onSchema @hchild @each reached kept traits admits good
        context gathers.found own hparts hws hshape hel all

end Planner

end FieldPlan
