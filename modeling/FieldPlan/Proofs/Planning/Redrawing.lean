import FieldPlan.Proofs.Planning.Arranged
import FieldPlan.Proofs.Planning.Expansion
import FieldPlan.Proofs.Schema.Settled

/-!
# Planning under new numbers

A field is planned by the same steps from whichever number the parameters are drawn: the plans that
come out differ in the numbers of the parameters that were drawn.

* `PlanState.renumber`, `Planning.Renumbered` : a state under new numbers; a computation that does
  under new numbers what another one does;
* `bindServices_renumbered`, `Planner.resolveBase_renumbered` : binding services, and the expression
  of a field's own value;
* `Planner.planNode_renumbered` : planning a node.
-/

namespace FieldPlan

open Expr

/-! ## Tables -/

namespace Dict

variable {α β : Type} (f : α → β) (d : Dict α) (name : String)

theorem find?_map : find? (d.map (Prod.map id f)) name = (d.find? name).map f := by
  induction d with
  | nil => rfl
  | cons x d ih =>
    obtain ⟨k, v⟩ := x
    rw [List.map_cons, Prod.map_apply, id, find?_cons, find?_cons, ih]
    split <;> rfl

theorem contains_map : contains (d.map (Prod.map id f)) name = d.contains name := by
  rw [contains, List.any_map]
  rfl

theorem insert_map (v : α) :
    (d.insert name v).map (Prod.map id f) = Dict.insert (d.map (Prod.map id f)) name (f v) := by
  induction d with
  | nil => rfl
  | cons x d ih =>
    obtain ⟨k, w⟩ := x
    rw [insert, List.map_cons, Prod.map_apply, id, insert]
    split
    · rfl
    · rw [List.map_cons, ih]
      rfl

end Dict

/-! ## States -/

/-- A state under new numbers of parameters. -/
def PlanState.renumber (ρ : Nat → Nat) (s : PlanState) : PlanState where
  fresh := ρ s.fresh
  bindings := s.bindings.map (Prod.map (Param.renumber ρ) id)
  services := s.services
  serviceParams := s.serviceParams.map (Prod.map id (Param.renumber ρ))

variable {low : Nat} {ρ : Renumbering low} {α β : Type}

/-- A computation that plans under new numbers what another one plans. -/
abbrev Planning.Renumbered (ρ : Renumbering low) (r : α → β) (x : Planning α) (y : Planning β) :
    Prop :=
  Mirrors (PlanState.renumber ρ) (fun s => low ≤ s.fresh) r x y

theorem draw_renumbered {r : α → β} {x : Fresh α} {y : Fresh β} (h : Fresh.Renumbered ρ r x y) :
    Planning.Renumbered ρ r (draw x) (draw y) := by
  intro s hs
  obtain ⟨hy, hlow⟩ := h s.fresh hs
  refine ⟨?_, fun a s' ha => ?_⟩
  · show Except.ok ((y (ρ s.fresh)).1, { s.renumber ρ with fresh := (y (ρ s.fresh)).2 }) = _
    rw [hy]
    rfl
  · obtain rfl : { s with fresh := (x s.fresh).2 } = s' := congrArg Prod.snd (Except.ok.inj ha)
    exact hlow

theorem checkAt_renumbered {r : α → β} (path : Path) {u : Except PlanFault α} {v : Except PlanFault β}
    (h : v = u.map r) : Planning.Renumbered ρ r (checkAt path u) (checkAt path v) := by
  refine .lift ?_
  rw [h]
  cases u <;> rfl

theorem checkAt_same (path : Path) (u : Except PlanFault α) :
    Planning.Renumbered ρ id (checkAt path u) (checkAt path u) :=
  checkAt_renumbered path (by cases u <;> rfl)

theorem addConstant_renumbered (p : Param) (v : Json) :
    Planning.Renumbered ρ id (addConstant p v) (addConstant (p.renumber ρ) v) := by
  intro s hs
  refine ⟨?_, fun _ _ h => ?_⟩
  · show Except.ok ((), _) = Except.ok ((), PlanState.renumber ρ { s with bindings := _ })
    simp [PlanState.renumber]
  · cases h
    exact hs

theorem addServices_renumbered (names : List ServiceName) :
    Planning.Renumbered ρ id (addServices names) (addServices names) := by
  intro s hs
  refine ⟨rfl, fun _ _ h => ?_⟩
  cases h
  exact hs

/-! ## Services -/

theorem serviceParam_known {s : PlanState} {name : ServiceName} {p : Param}
    (h : s.serviceParams.find? name = some p) : serviceParam name s = .ok (p, s) := by
  rw [serviceParam, run_get, h]
  rfl

theorem serviceParam_new {s : PlanState} {name : ServiceName}
    (h : s.serviceParams.find? name = none) : serviceParam name s =
      .ok (⟨s.fresh, name, .service name false⟩,
        { fresh := s.fresh + 1
          bindings := s.bindings ++ [(⟨s.fresh, name, .service name false⟩, .service name)]
          services := addName s.services name
          serviceParams := s.serviceParams.insert name ⟨s.fresh, name, .service name false⟩ }) := by
  rw [serviceParam, run_get, h]
  rfl

theorem serviceParam_renumbered (name : ServiceName) :
    Planning.Renumbered ρ (Param.renumber ρ) (serviceParam name) (serviceParam name) := by
  intro s hs
  have found : (s.renumber ρ).serviceParams.find? name =
      (s.serviceParams.find? name).map (Param.renumber ρ) := Dict.find?_map _ _ name
  cases hf : s.serviceParams.find? name with
  | some p =>
    rw [hf] at found
    rw [serviceParam_known hf, serviceParam_known found]
    refine ⟨rfl, fun _ _ h => ?_⟩
    cases h
    exact hs
  | none =>
    rw [hf] at found
    rw [serviceParam_new hf, serviceParam_new found]
    refine ⟨congrArg Except.ok (Prod.ext rfl ?_), fun _ _ h => ?_⟩
    · simp [PlanState.renumber, Dict.insert_map, ρ.next _ hs, Param.renumber]
    · cases h
      exact Nat.le_succ_of_le hs

theorem bindHandles_renumbered (e : Expr) :
    Planning.Renumbered ρ (renumber ρ) (bindHandles e) (bindHandles (e.renumber ρ)) := by
  unfold bindHandles
  rw [services_renumber]
  have pairs : Planning.Renumbered ρ (List.map (Prod.map (renumber ρ) (renumber ρ)))
      (e.services.mapM fun name => do
        let p ← serviceParam name
        pure (Expr.service name, Expr.param p))
      ((e.services.map id).mapM fun name => do
        let p ← serviceParam name
        pure (Expr.service name, Expr.param p)) :=
    .mapM fun name _ => (serviceParam_renumbered name).bind fun p => .pure rfl
  rw [List.map_id] at pairs
  exact pairs.bind fun pairs => draw_renumbered (replaceAll_renumbered e pairs)

theorem bindServices_renumbered (registered : Option (ServiceName → Bool)) (path : Path) (e : Expr) :
    Planning.Renumbered ρ (renumber ρ) (bindServices registered path e)
      (bindServices registered path (e.renumber ρ)) := by
  unfold bindServices
  rw [services_renumber]
  split
  · exact .pure rfl
  · split
    · exact .throw _
    · exact (addServices_renumbered _).bind fun _ => bindHandles_renumbered e

/-! ## The value of the field itself -/

/-- A field to be planned in its context under new numbers. -/
def Target.renumber (ρ : Nat → Nat) (t : Target) : Target :=
  { t with context := t.context.renumber ρ }

/-- A base expression under new numbers. -/
def Base.renumber (ρ : Nat → Nat) (b : Base) : Base := { b with expr := b.expr.renumber ρ }

namespace Planner

variable {c : Planner} {t : Target} (settled : t.field.Settled ρ)

theorem directExpr_renumbered (standard : c.schema.Standard) (path : Path) (e : Expr)
    (uses : List DirectiveUse) :
    Planning.Renumbered ρ (Option.map (renumber ρ)) (c.directExpr path e uses)
      (c.directExpr path (e.renumber ρ) uses) := by
  induction uses generalizing e with
  | nil => exact .pure rfl
  | cons use rest ih =>
    rw [directExpr, directExpr]
    cases hd : c.schema.directives.find? use.name with
    | none => exact ih e
    | some d =>
      obtain ⟨description, k, rfl⟩ := standard.conditional hd
      refine (checkAt_renumbered path ?_).bind (r := Option.map (renumber ρ)) fun next => ?_
      · rw [Directive.conditional_renumber]
        cases (Directive.conditional use.name description k).processExpression e _ <;> rfl
      · cases next with
        | none => exact .pure rfl
        | some e => exact ih e

include settled

theorem extractedPairs_renumber :
    extractedPairs (t.renumber ρ) =
      (extractedPairs t).map (Prod.map (Expr.renumber ρ) (Expr.renumber ρ)) := by
  unfold extractedPairs
  rw [List.map_filterMap]
  refine List.filterMap_congr fun part hpart => ?_
  show ((t.context.renumber ρ).recordMember? part.name).map _ = _
  rw [recordMember_renumber, Option.map_map, Option.map_map]
  refine congrArg (Option.map · _) (funext fun m => ?_)
  exact Prod.ext (settled.extracted part hpart).symm rfl

theorem contextExpr_renumbered (frame : Frame) :
    Planning.Renumbered ρ (Prod.map (Expr.renumber ρ) id) (c.contextExpr t frame)
      (c.contextExpr (t.renumber ρ) frame) := by
  have own : ∀ e : Expr, Fresh.Renumbered ρ (Expr.renumber ρ) (e.replaceParam t.field.param t.context)
      ((e.renumber ρ).replaceParam t.field.param (t.context.renumber ρ)) := by
    intro e
    have h := replaceParam_renumbered (ρ := ρ) e t.field.param t.context
    rwa [settled.param] at h
  unfold contextExpr materializedExpr
  split
  · split
    · exact .pure rfl
    · rw [show (t.renumber ρ).context.recordMember? (t.renumber ρ).name =
        (t.context.recordMember? t.name).map (renumber ρ) from recordMember_renumber ..]
      cases t.context.recordMember? t.name with
      | some m => exact .pure rfl
      | none =>
        refine draw_renumbered ?_
        show Fresh.Renumbered ρ _ (if c.tree.hasAnyServices t.id = true then _ else _)
          (if c.tree.hasAnyServices t.id = true then _ else _)
        split
        · have parts := replaceAll_renumbered (ρ := ρ) t.field.resolve (extractedPairs t)
          rw [settled.resolve, ← extractedPairs_renumber settled] at parts
          exact parts.bind fun e => (own e).bind fun e => .pure rfl
        · exact Fresh.Renumbered.bind (.pure settled.resolve.symm) fun e =>
            (own e).bind fun e => .pure rfl
  · refine draw_renumbered ?_
    have h := own t.field.resolve
    rw [settled.resolve] at h
    exact h.bind fun e => .pure rfl

theorem bindArguments_renumbered (arguments : Dict Json) (e : Expr) :
    Planning.Renumbered ρ (Expr.renumber ρ) (bindArguments t arguments e)
      (bindArguments (t.renumber ρ) arguments (e.renumber ρ)) := by
  unfold bindArguments
  dsimp only [Target.renumber]
  cases hp : t.field.argumentParam with
  | none => exact .pure rfl
  | some p =>
    have same := mentions_renumber ρ e p
    have fixed := settled.argumentParam p hp
    rw [fixed] at same
    dsimp only
    rw [same]
    split
    · refine (draw_renumbered (.param "args" p.ty)).bind fun bound => ?_
      refine (addConstant_renumbered bound _).bind fun _ => draw_renumbered ?_
      have h := replaceParam_renumbered (ρ := ρ) e p (.param bound)
      rwa [fixed] at h
    · exact .pure rfl

/-- The expression of a field's own value. -/
theorem resolveBase_renumbered (standard : c.schema.Standard) (frame : Frame) :
    Planning.Renumbered ρ (Option.map (Base.renumber ρ)) (c.resolveBase t frame)
      (c.resolveBase (t.renumber ρ) frame) := by
  unfold resolveBase
  refine (checkAt_same t.path _).bind fun arguments => ?_
  refine (contextExpr_renumbered settled frame).bind fun r => ?_
  obtain ⟨e, materialized⟩ := r
  refine (bindArguments_renumbered settled arguments e).bind fun e => ?_
  refine (directExpr_renumbered standard t.path e t.node.directives).bind fun r => ?_
  cases r <;> exact .pure rfl

end Planner

/-! ## Extensions -/

theorem Planner.runHook_renumbered {r : α → β} {hook : Hook α} {hook' : Hook β} (path : Path)
    (x : Extension) (h : Hook.Renumbered ρ r hook hook') :
    Planning.Renumbered ρ r (runHook path x hook) (runHook path x hook') := by
  intro s hs
  obtain ⟨hy, hlow⟩ := h s.fresh hs
  unfold runHook
  rw [show hook'.run (s.renumber ρ).fresh = _ from hy]
  cases hx : hook.run s.fresh with
  | error e =>
    rw [show hook s.fresh = _ from hx]
    cases e <;> exact ⟨rfl, nofun⟩
  | ok p =>
    rw [show hook s.fresh = _ from hx]
    refine ⟨rfl, fun a s' ha => ?_⟩
    cases ha
    exact hlow p.1 p.2 hx

namespace Planner

variable {config : SchemaConfig} {c : Planner} (built : config.build = .ok c.schema)
  {ρ : Renumbering c.schema.fresh} {t : Target}

include built

theorem settled_of_mem {f : Field} (hf : f ∈ c.schema.fields) : f.Settled ρ :=
  ((SchemaConfig.build_ok built).1 f hf).settled ρ

theorem extensions_of_mem {f : Field} (hf : f ∈ c.schema.fields) :
    ∃ fc : FieldConfig, f.extensions = fc.extensions := by
  obtain ⟨fc, source, traits⟩ := ((SchemaConfig.build_ok built).1 f hf).traits
  exact ⟨fc, traits.extensions⟩

variable (ht : t.field ∈ c.schema.fields)

include ht

theorem preSelection_renumbered (base : Base) (frame : Frame) (e : Expr) (item : Option Param) :
    Planning.Renumbered ρ (based ρ) (preSelection t (c.site t base frame) e item)
      (preSelection (t.renumber ρ) (c.site (t.renumber ρ) (base.renumber ρ) frame) (e.renumber ρ)
        (item.map (Param.renumber ρ))) := by
  obtain ⟨fc, hfc⟩ := extensions_of_mem built ht
  have fields : ∀ owner name f, (c.site t base frame).fieldOf owner name = some f → f.Settled ρ := by
    intro owner name f hf
    obtain ⟨g, hg, rfl⟩ := Option.map_eq_some_iff.mp hf
    exact settled_of_mem built ((SchemaConfig.indexed built).field?_ok hg).1
  have hooks : Planning.Renumbered ρ (based ρ) (preSelection t (c.site t base frame) e item)
      ((t.field.extensions.map id).foldlM (fun (acc : Expr × Option Param) x =>
        runHook t.path x (x.preSelection (c.site t base frame) acc.1 acc.2))
          (based ρ (e, item))) := by
    refine Mirrors.foldlM (fun x hx acc => runHook_renumbered t.path x ?_) (e, item)
    rcases FieldConfig.mem_extensions (hfc ▸ hx) with ⟨default, rfl⟩ | ⟨m, n, rfl⟩
    · exact Extension.sort_renumbered fields default acc.1 acc.2
    · exact Extension.paging_renumbered m n _ acc.1 acc.2
  rw [List.map_id] at hooks
  exact hooks

end Planner

/-! ## Children -/

abbrev Children.renumber (ρ : Nat → Nat) (children : Children) : Children :=
  List.map (Prod.map id (Expr.renumber ρ)) children

namespace Planner

variable {config : SchemaConfig} {c : Planner} (built : config.build = .ok c.schema)
  (onSchema : c.tree.Over c.schema) {ρ : Renumbering c.schema.fresh} {t : Target}

/-- A way to plan the fields of a schema that does the same under new numbers. -/
def PlanChild.Renumbered (c : Planner) (ρ : Renumbering c.schema.fresh) (planChild : PlanChild) :
    Prop :=
  ∀ s : Selected, s.field ∈ c.schema.fields → ∀ context lineage path frame,
    Planning.Renumbered ρ (Option.map (Expr.renumber ρ)) (planChild s context lineage path frame)
      (planChild s (context.renumber ρ) lineage path frame)

variable {planChild : PlanChild} (hchild : PlanChild.Renumbered c ρ planChild)

include built hchild

theorem addContribution_renumbered {pass : Pass} {x : Contribution} (hx : c.Contributes pass x)
    (context : Expr) (frame : Frame) (children : Children) :
    Planning.Renumbered ρ (Children.renumber ρ) (addContribution planChild t context frame children x)
      (addContribution planChild (t.renumber ρ) (context.renumber ρ) frame
        (children.renumber ρ) x) := by
  cases x with
  | node s =>
    unfold addContribution
    dsimp only
    rw [Dict.contains_map]
    split
    · exact .pure rfl
    · refine (hchild s hx.field context _ _ frame).bind fun r => ?_
      cases r with
      | none => exact .pure rfl
      | some e => exact .pure (Dict.insert_map _ _ _ e).symm
  | extracted field part =>
    obtain ⟨-, f, hf, rfl, -, hpart⟩ := hx
    have settled : f.Settled ρ := settled_of_mem built hf
    unfold addContribution
    dsimp only
    rw [Dict.contains_map]
    split
    · exact .pure rfl
    · have h := replaceParam_renumbered (ρ := ρ) part.expr f.param context
      rw [settled.extracted part hpart, settled.param] at h
      exact (draw_renumbered h).bind fun e => .pure (Dict.insert_map _ _ _ e).symm

include onSchema

theorem planChildren_renumbered (context : Expr) (frame : Frame) :
    Planning.Renumbered ρ (Children.renumber ρ) (c.planChildren planChild t context frame)
      (c.planChildren planChild (t.renumber ρ) (context.renumber ρ) frame) := by
  have standard : c.schema.Standard := (SchemaConfig.build_ok built).2.1
  unfold planChildren
  show Planning.Renumbered ρ _ (StateT.lift (c.expand frame.pass t.path t.node.children) >>= _)
    (StateT.lift (c.expand frame.pass t.path t.node.children) >>= _)
  cases hparts : c.expand frame.pass t.path t.node.children with
  | error e => exact .throw e
  | ok parts =>
    have sound := expand_sound standard onSchema hparts
    have steps : Planning.Renumbered ρ (Children.renumber ρ)
        (parts.foldlM (addContribution planChild t context { frame with isRoot := false }) [])
        ((parts.map id).foldlM (addContribution planChild (t.renumber ρ) (context.renumber ρ)
          { frame with isRoot := false }) (Children.renumber ρ [])) :=
      .foldlM (fun x hx children =>
        addContribution_renumbered built hchild (sound x hx) context _ children) []
    rw [List.map_id] at steps
    exact steps

/-! ## Nodes -/

variable (ht : t.field ∈ c.schema.fields)

include ht

omit onSchema hchild in
theorem planScalar_renumbered (frame : Frame) :
    Planning.Renumbered ρ (Option.map (Expr.renumber ρ)) (c.planScalar t frame)
      (c.planScalar (t.renumber ρ) frame) := by
  have standard : c.schema.Standard := (SchemaConfig.build_ok built).2.1
  obtain ⟨fc, hx⟩ := extensions_of_mem built ht
  have hx' : (t.renumber ρ).field.extensions = fc.extensions := hx
  unfold planScalar
  refine (resolveBase_renumbered (settled_of_mem built ht) standard frame).bind fun r => ?_
  cases r with
  | none => exact .pure rfl
  | some base =>
    dsimp only [Option.map_some]
    rw [scalarExpression_eq hx, scalarExpression_eq hx', pure_bind, pure_bind]
    exact (bindServices_renumbered c.registered t.path base.expr).bind fun e => .pure rfl

omit onSchema hchild in
theorem wrapOnce_renumbered (site : Site) (base : Expr) (children : Children) (frame : Frame) :
    Planning.Renumbered ρ (Expr.renumber ρ) (c.wrapOnce t site base children frame)
      (c.wrapOnce (t.renumber ρ) site (base.renumber ρ) (children.renumber ρ) frame) := by
  obtain ⟨fc, hx⟩ := extensions_of_mem built ht
  have hx' : (t.renumber ρ).field.extensions = fc.extensions := hx
  unfold wrapOnce
  refine (bindServices_renumbered c.registered t.path base).bind fun bound => ?_
  rw [ty_renumber]
  refine (draw_renumbered (.param t.name bound.ty)).bind fun wrap => ?_
  refine Mirrors.bind (r := Children.renumber ρ) (.mapM fun child _ => draw_renumbered ?_)
    fun children => ?_
  · refine (replaceAll_renumbered child.2 [(base, .param wrap), (bound, .param wrap)]).bind
      fun e => ?_
    rw [ty_renumber]
    split
    · exact (replaceParamsByType_renumbered e base.ty (.param wrap)).bind fun e => .pure rfl
    · exact Fresh.Renumbered.bind (.pure (r := Expr.renumber ρ) rfl) fun e => .pure rfl
  · rw [selection_eq hx, selection_eq hx', pure_bind, pure_bind]
    refine .pure ?_
    simp [renumber, Target.renumber, Target.name]

theorem planObject_renumbered (frame : Frame) :
    Planning.Renumbered ρ (Option.map (Expr.renumber ρ)) (c.planObject planChild t frame)
      (c.planObject planChild (t.renumber ρ) frame) := by
  have standard : c.schema.Standard := (SchemaConfig.build_ok built).2.1
  obtain ⟨fc, hx⟩ := extensions_of_mem built ht
  have hx' : (t.renumber ρ).field.extensions = fc.extensions := hx
  unfold planObject
  refine (resolveBase_renumbered (settled_of_mem built ht) standard frame).bind fun r => ?_
  cases r with
  | none => exact .pure rfl
  | some base =>
    dsimp only [Option.map_some]
    refine (preSelection_renumbered built ht base frame base.expr none).bind fun ⟨e, item⟩ => ?_
    refine (planChildren_renumbered built onSchema hchild e frame).bind fun children => ?_
    simp only [Prod.map_apply, List.isEmpty_map, services_renumber, isConstruction_renumber]
    split
    · show Planning.Renumbered ρ _ (pure (if c.carries t frame then some e else none))
        (pure (if c.carries t frame then some (e.renumber ρ) else none))
      split <;> exact .pure rfl
    · split
      · exact (wrapOnce_renumbered built ht _ e children frame).bind fun e => .pure rfl
      · rw [selection_eq hx, selection_eq hx', pure_bind, pure_bind]
        refine .pure ?_
        simp only [ty_renumber, isConstruction_renumber, Option.map_some]
        split <;> simp [renumber, Target.renumber, Target.name]

omit built onSchema hchild ht in
theorem selectOnce_renumbered (list : Expr) (item : Param) (body : Expr) :
    Planning.Renumbered ρ (Expr.renumber ρ) (c.selectOnce t list item body)
      (c.selectOnce (t.renumber ρ) (list.renumber ρ) (item.renumber ρ) (body.renumber ρ)) := by
  unfold selectOnce
  refine (bindServices_renumbered c.registered t.path list).bind fun bound => ?_
  rw [ty_renumber]
  split
  · refine (draw_renumbered (.param t.name bound.ty)).bind fun wrap => .pure ?_
    simp [renumber]
  · exact .pure rfl

theorem planList_renumbered (frame : Frame) :
    Planning.Renumbered ρ (Option.map (Expr.renumber ρ)) (c.planList planChild t frame)
      (c.planList planChild (t.renumber ρ) frame) := by
  have standard : c.schema.Standard := (SchemaConfig.build_ok built).2.1
  obtain ⟨fc, hx⟩ := extensions_of_mem built ht
  have hx' : (t.renumber ρ).field.extensions = fc.extensions := hx
  unfold planList
  refine (resolveBase_renumbered (settled_of_mem built ht) standard frame).bind fun r => ?_
  cases r with
  | none => exact .pure rfl
  | some base =>
    dsimp only [Option.map_some, Base.renumber]
    rw [ty_renumber]
    cases base.expr.ty.element? with
    | none => exact .throw _
    | some element =>
      refine (draw_renumbered (.param t.name element)).bind fun item => ?_
      refine (preSelection_renumbered built ht base frame base.expr (some item)).bind fun r => ?_
      obtain ⟨list, changed⟩ := r
      have hitem : ((changed.map (Param.renumber ρ)).getD (item.renumber ρ)) =
          (changed.getD item).renumber ρ := by cases changed <;> rfl
      dsimp only [Prod.map_apply]
      rw [hitem]
      generalize changed.getD item = item
      refine (planChildren_renumbered built onSchema hchild (.param item) frame).bind fun children => ?_
      rw [List.isEmpty_map]
      split
      · show Planning.Renumbered ρ _ (pure (if c.carries t frame then some list else none))
          (pure (if c.carries t frame then some (list.renumber ρ) else none))
        split <;> exact .pure rfl
      · rw [selection_eq hx, selection_eq hx', pure_bind, pure_bind]
        have body : (Expr.record t.name children).renumber ρ =
            .record (t.renumber ρ).name (children.renumber ρ) := by
          simp [renumber, Target.renumber, Target.name]
        dsimp only [Option.getD_some]
        rw [← body, services_renumber]
        split
        · exact (selectOnce_renumbered list item _).bind fun e => .pure rfl
        · refine .pure ?_
          dsimp only [Option.map_some]
          split <;> simp [renumber]

theorem planField_renumbered (frame : Frame) :
    Planning.Renumbered ρ (Option.map (Expr.renumber ρ)) (c.planField planChild t frame)
      (c.planField planChild (t.renumber ρ) frame) := by
  unfold planField
  rw [show (t.renumber ρ).field.hasServices = t.field.hasServices from rfl,
    show (t.renumber ρ).field.shape = t.field.shape from rfl]
  split
  · exact .pure rfl
  · cases t.field.shape with
    | scalar => exact planScalar_renumbered built ht frame
    | object => exact planObject_renumbered built onSchema hchild ht frame
    | list => exact planList_renumbered built onSchema hchild ht frame

omit hchild ht in
/-- Planning a node does the same under new numbers. -/
theorem planNode_renumbered (depth : Nat) : PlanChild.Renumbered c ρ (c.planNode depth) := by
  induction depth with
  | zero => exact fun s _ context lineage path frame => .throw _
  | succ depth ih =>
    intro s hs context lineage path frame
    exact planField_renumbered built onSchema ih (t := ⟨s, context, lineage, path⟩) hs frame

end Planner

end FieldPlan
