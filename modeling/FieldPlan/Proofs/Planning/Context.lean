import FieldPlan.Proofs.Planning.Expansion
import FieldPlan.Proofs.Planning.Reread

/-!
# The value of a field over its context

* `Frame.Admits` : the contexts that fields are planned over;
* `Planner.resolveBase_ok` : the base expression of a field is its own value, as the frame reads it,
  over the context.
-/

namespace FieldPlan

open Expr

/-! ## Contexts -/

theorem SelectionTree.hasAnyServices_of_field {t : SelectionTree} {id : NodeId} {n : Node}
    (hn : t.node? id = some n) (hs : n.hasServices = true) : t.hasAnyServices id = true := by
  unfold hasAnyServices findsServices searchDepth
  rw [List.foldlM_cons]
  simp [search, hn, hs]

/-- The context can be planned over, in a frame and in a state; `low` is the first number of a
parameter that does not occur in the schema. -/
structure Frame.Admits (low : Nat) (frame : Frame) (s : PlanState) (C : Expr) : Prop where
  coherent : C.Coherent
  above : ∀ i ∈ C.ids, low ≤ i
  below : ∀ i ∈ C.ids, i < s.fresh
  apart : ∀ i ∈ C.binders, i ∉ s.boundIds
  called : C.Served → C.Called ∧ C.ty.Flat
  unserved : frame.pass = .shape → ¬C.Served
  flat : frame.contextChanged = false → C.ty.Flat
  changed : frame.contextChanged = true → frame.pass = .services ∧ (frame.isRoot = true → ¬C.Served)
  built : C.isConstruction = false
  low : low ≤ s.fresh

namespace Frame.Admits

variable {low : Nat} {frame : Frame} {s s' : PlanState} {C : Expr}

theorem grows (h : frame.Admits low s C) (hs : s.Grows s') : frame.Admits low s' C :=
  { h with
    below := fun i hi => Nat.lt_of_lt_of_le (h.below i hi) hs.fresh
    apart := fun i hi => by
      rw [hs.boundIds (h.below i (ids_of_binders hi))]
      exact h.apart i hi
    low := Nat.le_trans h.low hs.fresh }

theorem not_mem (h : frame.Admits low s C) {i : Nat} (hi : i < low) : i ∉ C.ids := fun hm =>
  absurd (h.above i hm) (Nat.not_le.mpr hi)

end Frame.Admits

/-! ## Own expressions over the context -/

theorem pathFrom_ids {e : Expr} {p : Param} {path : List String} (h : e.pathFrom? p = some path) :
    p.id ∈ e.ids := by
  induction e using partwise generalizing path with
  | h e ih =>
    cases e with
    | param q =>
      simp only [pathFrom?] at h
      split at h
      · rename_i hq
        exact mem_ids.mpr ⟨_, self_mem_subterms _, q, rfl, hq⟩
      · cases h
    | member target name t =>
      simp only [pathFrom?, Option.map_eq_some_iff] at h
      obtain ⟨path, hp, -⟩ := h
      exact ids_of_child List.mem_cons_self (ih target List.mem_cons_self hp)
    | _ => cases h

section Planner

variable {config : SchemaConfig} {c : Planner} {frame : Frame}

/-- The value of a selected field as its description says. -/
structure Item.For (s : Selected) (fc : FieldConfig) (source : Resolve) (item : Item) : Prop where
  name : item.name = s.node.name
  field : item.field = s.field.name
  ty : item.ty = s.field.ty
  source : item.source = source
  arrangement : item.arrangement = fc.arrangement? item.arguments

theorem Planner.item_ok {s : Selected} {lineage : List NodeId} {path : Path} {fc : FieldConfig}
    {source : Resolve} {item : Item} (traits : s.field.Traits config c.schema.fresh fc source)
    (h : c.item config s lineage path = .ok item) : item.For s fc source := by
  unfold Planner.item at h
  obtain ⟨arguments, -, h⟩ := bind_ok.mp h
  cases h
  exact ⟨rfl, rfl, rfl, by simp [traits.found, traits.source_eq], by simp [traits.found]⟩

/-- The value of a field over a context, its arguments not bound yet. -/
structure OwnOver (frame : Frame) (C : Expr) (f : Field) (item : Item) (e : Expr)
    (materialized : Bool) : Prop where
  own : Own (· = .arguments) C (item.view frame C.ty).source e
  ty : e.ty = (item.view frame C.ty).ty
  arrangement : (item.view frame C.ty).arrangement =
    if materialized then some {} else item.arrangement
  called : e.Served → e.Called ∧ e.ty = item.ty
  record : Param.arguments.id ∈ e.ids → f.resolve.mentions .arguments = true

theorem own_called {C e : Expr} {source : Resolve} (field : String) {t : Ty} (hs : source.Plain)
    (own : Own (· = .arguments) C (source.reread field C.ty) e) (hty : e.ty = source.tyOver C.ty t)
    (hC : C.Served → C.Called ∧ C.ty.Flat) (h : e.Served) : e.Called ∧ e.ty = t := by
  cases source with
  | member path =>
    cases own with
    | member chain =>
      obtain ⟨called, flat⟩ := hC (chain.served_iff.mp h)
      exact ⟨chain.called called, hty.trans (flat.along t hs)⟩
  | service name method args =>
    cases own with
    | service _ _ _ _ => exact ⟨.call _ _ _ _, hty⟩
  | constant v =>
    cases own with
    | constant _ _ =>
      obtain ⟨name, hn⟩ := h
      cases List.mem_singleton.mp hn
  | expr e => exact hs.elim

theorem not_served_recordMember {C m : Expr} {name : String} (hC : C.Served → C.ty.Flat)
    (h : C.recordMember? name = some m) : ¬m.Served := by
  rw [recordMember_eq] at h
  obtain ⟨u, hu, rfl⟩ := Option.map_eq_some_iff.mp h
  rw [Expr.served_iff]
  rintro (⟨_, h⟩ | ⟨x, hx, h⟩)
  · cases h
  · cases List.mem_singleton.mp hx
    rw [hC h name] at hu
    cases hu

/-- The record of arguments occurs in a source over a context only if it does in the source. -/
theorem mentions_of_ids {C : Expr} {source : Resolve} {t : Ty} {owner : Param}
    {f g : Expr → Option Expr} (hs : source.Plain) (hC : Param.arguments.id ∉ C.ids)
    (hf : ∀ x r, f x = some r → r.ids = C.ids) (hg : ∀ x r, g x = some r → r.ids = C.ids)
    (h : Param.arguments.id ∈ (((source.exprOver t owner .arguments).swap f).swap g).ids) :
    (source.exprOver t owner .arguments).mentions .arguments = true := by
  have inside : Param.arguments.id ∈ (source.exprOver t owner .arguments).ids := by
    rcases ids_swap h with h | ⟨x, -, r, hr, h⟩
    · rcases ids_swap h with h | ⟨x, -, r, hr, h⟩
      · exact h
      · exact absurd (hf x r hr ▸ h) hC
    · exact absurd (hg x r hr ▸ h) hC
  obtain ⟨x, hx, p, hp, hid⟩ := mem_ids.mp inside
  have binds := (source_exprOver source hs t owner .arguments).binders x hx
  cases x with
  | param q => exact mentions_iff.mpr ⟨q, hx, by cases hp; exact hid⟩
  | _ => cases binds.symm.trans hp

theorem Planner.extractedPairs_eq {t : Target} {fc : FieldConfig} {source : Resolve} {fresh : Nat}
    (traits : t.field.Traits config fresh fc source) : extractedPairs t =
      partPairs t.context t.field.param t.field.name (source.partPaths t.field.name) := by
  unfold extractedPairs partPairs
  rw [traits.extracted_eq, List.filterMap_map]
  rfl

section Swaps

variable {C : Expr} {f : Field} {fc : FieldConfig} {source : Resolve} {fresh : Nat}

theorem coherent_of_recordMember {m : Expr} {name : String} (hC : C.Coherent)
    (h : C.recordMember? name = some m) : m.Coherent := by
  rw [recordMember_eq] at h
  obtain ⟨u, hu, rfl⟩ := Option.map_eq_some_iff.mp h
  rw [coherent_iff]
  refine ⟨fun v hv => Option.some.inj (hv.symm.trans hu), fun x hx => ?_⟩
  cases List.mem_singleton.mp hx
  exact hC

theorem pick_partPairs_some {owner : Param} {field : String} {parts : List (List String)} {x r : Expr}
    (h : Rule.pick (partPairs C owner field parts) x = some r) :
    ∃ name, C.recordMember? name = some r := by
  obtain ⟨a, ha, -⟩ := mem_of_pick h
  obtain ⟨path, -, hm⟩ := List.mem_filterMap.mp ha
  obtain ⟨m, hm, he⟩ := Option.map_eq_some_iff.mp hm
  cases he
  exact ⟨_, hm⟩

theorem ids_of_pick_owner {owner : Param} {x r : Expr}
    (h : Rule.pick [(.param owner, C)] x = some r) : r.ids = C.ids := by
  rw [pick_param] at h
  split at h <;> cases h
  rfl

theorem over_of_recordMember {m : Expr} {name : String} (h : C.recordMember? name = some m) :
    Over C m := by
  rw [recordMember_eq] at h
  obtain ⟨u, -, rfl⟩ := Option.map_eq_some_iff.mp h
  exact .member _ u .context

/-- The parts of a field replaced by the members of the context that hold them. -/
theorem replaceParts_eq (traits : f.Traits config fresh fc source) (hcoh : C.Coherent)
    (hC : f.param.id ∉ C.ids) :
    let parts := partPairs C f.param f.name (source.partPaths f.name)
    f.resolve.replaceAll parts = pure (f.resolve.swap (Rule.pick parts)) ∧
      Over C (f.resolve.swap (Rule.pick parts)) ∧ (f.resolve.swap (Rule.pick parts)).Coherent := by
  intro parts
  have hone : Param.arguments.id ≠ f.param.id := Nat.ne_of_lt traits.above
  have coherent := coherent_exprOver source traits.plain f.ty traits.flat Param.flat_arguments
  have steady : (source.exprOver f.ty f.param .arguments).Steady (Rule.pick parts) := by
    refine (over_exprOver source traits.plain f.ty f.param .arguments).steady
      (coherent_param .arguments) fun x hx => ?_
    cases List.mem_singleton.mp hx
    exact pick_partPairs_none (by simp [pathFrom?, hone])
  rw [traits.resolve]
  refine ⟨replaceAll_eq coherent steady, ?_, ?_⟩
  · refine (over_exprOver source traits.plain f.ty f.param .arguments).swap hcoh (fun x hx => ?_)
      fun x r hr => ?_
    · refine pick_partPairs_none (Option.eq_none_iff_forall_ne_some.mpr fun path hp => ?_)
      exact hC (ids_of_subterm hx (pathFrom_ids hp))
    · obtain ⟨name, hm⟩ := pick_partPairs_some hr
      exact over_of_recordMember hm
  · refine Coherent.swap steady fun x _ r hr => ?_
    obtain ⟨name, hm⟩ := pick_partPairs_some hr
    exact coherent_of_recordMember hcoh hm

/-- The owner replaced by the context. -/
theorem replaceOwner_eq {e : Expr} (he : Over C e) (hcoh : e.Coherent) (hC : C.Coherent) {p : Param}
    (hp : p.id ∉ C.ids) :
    e.replaceParam p C = pure (e.swap (Rule.pick [(.param p, C)])) :=
  replaceAll_eq hcoh (he.steady hC (pick_param_of_not_mem hp))

end Swaps

/-- The expression of a field over a context that holds no value of it. -/
theorem Planner.ownOver_over {t : Target} (kept : c.Kept t.toSelected) {fc : FieldConfig}
    {source : Resolve} (traits : t.field.Traits config c.schema.fresh fc source) {item : Item}
    (hitem : item.For t.toSelected fc source) {s s' : PlanState} (hfresh : 1 < c.schema.fresh)
    (admits : frame.Admits c.schema.fresh s t.context) (hchanged : frame.contextChanged = true)
    (hroot : frame.isRoot = false) (hmember : t.context.recordMember? t.name = none) {e : Expr}
    {materialized : Bool}
    (h : c.materializedExpr t frame s = .ok ((e, materialized), s')) :
    s' = s ∧ OwnOver frame t.context t.field item e materialized := by
  have hone : Param.arguments.id ∉ t.context.ids := admits.not_mem hfresh
  have howner : t.field.param.id ∉ t.context.ids := admits.not_mem traits.below
  obtain ⟨hparts, onContext, coherent⟩ := replaceParts_eq traits admits.coherent howner
  rw [← Planner.extractedPairs_eq traits] at hparts onContext coherent
  have owner := replaceOwner_eq onContext coherent admits.coherent howner
  have planned : c.materializedExpr t frame s = .ok (((t.field.resolve.swap
      (Rule.pick (extractedPairs t))).swap (Rule.pick [(.param t.field.param, t.context)]), false),
      s) := by
    unfold Planner.materializedExpr
    rw [if_neg (by simp [hroot]), hmember]
    by_cases hany : c.tree.hasAnyServices t.id = true
    · simp only [hany, if_true, hparts, pure_bind, owner]
      rfl
    · have none : extractedPairs t = [] := by
        unfold extractedPairs
        rw [traits.extracted, if_pos]
        · rfl
        · have node : t.node.hasServices = t.field.hasServices := by
            simp [Node.hasServices, Node.field?, kept.selects]
          have unserved : t.field.hasServices = false := by
            rw [← node, Bool.eq_false_iff]
            exact fun h => hany (SelectionTree.hasAnyServices_of_field kept.node h)
          simpa [FieldDef.hasServices, traits.services] using unserved
      have coherent' := coherent_exprOver source traits.plain t.field.ty
        traits.flat Param.flat_arguments
      rw [none, traits.resolve, swap_noPairs coherent', ← traits.resolve] at owner ⊢
      simp only [hany, Bool.false_eq_true, if_false, pure_bind, owner]
      rfl
  rw [planned] at h
  cases h
  refine ⟨rfl, ?_⟩
  have hnone : t.context.ty.member? item.name = none := by
    rw [recordMember_eq, Option.map_eq_none_iff] at hmember
    rw [hitem.name]
    exact hmember
  have hview : item.view frame t.context.ty = item.reread t.context.ty := by
    unfold Item.view
    rw [if_pos hchanged, if_neg (by simp [hroot]), hnone]
  obtain ⟨own, hty⟩ := Resolve.own_reread t.field.name traits.plain
    (Nat.ne_of_lt traits.above) traits.flat admits.coherent howner
    traits.bare
  have hpick : ∀ x r, Rule.pick (partPairs t.context t.field.param t.field.name
      (source.partPaths t.field.name)) x = some r → r.ids = t.context.ids := fun x r hr => by
    obtain ⟨name, hm⟩ := pick_partPairs_some hr
    rw [recordMember_eq] at hm
    obtain ⟨u, -, rfl⟩ := Option.map_eq_some_iff.mp hm
    simp [Expr.ids, subterms, own?, bound?]
  rw [Planner.extractedPairs_eq traits, traits.resolve]
  constructor
  · rw [hview]
    simpa [Item.reread, hitem.source, hitem.field] using own
  · rw [hview]
    simpa [Item.reread, hitem.source, hitem.ty] using hty
  · rw [hview]
    rfl
  · rw [hitem.ty]
    exact own_called _ traits.plain own hty admits.called
  · rw [traits.resolve]
    exact mentions_of_ids traits.plain hone hpick fun x r => ids_of_pick_owner

/-- The context is what a service pass reads of a root field. -/
theorem ownOver_whole {C : Expr} {f : Field} {item : Item} (hchanged : frame.contextChanged = true)
    (hroot : frame.isRoot = true) (unserved : ¬C.Served) (hone : Param.arguments.id ∉ C.ids) :
    OwnOver frame C f item C true := by
  have hview : item.view frame C.ty = item.whole C.ty := by
    unfold Item.view
    rw [if_pos hchanged, if_pos hroot]
  constructor
  · rw [hview]
    exact .member .nil
  · rw [hview]
    rfl
  · rw [hview]
    rfl
  · exact fun hs => absurd hs unserved
  · exact fun h => absurd h hone

/-- A value that was materialized is read from the context under its name. -/
theorem ownOver_taken {C m : Expr} {f : Field} {item : Item} (hchanged : frame.contextChanged = true)
    (hroot : frame.isRoot = false) (hC : C.Served → C.ty.Flat) (hone : Param.arguments.id ∉ C.ids)
    (hmember : C.recordMember? item.name = some m) : OwnOver frame C f item m true := by
  have unserved := not_served_recordMember hC hmember
  rw [recordMember_eq] at hmember
  obtain ⟨u, hu, rfl⟩ := Option.map_eq_some_iff.mp hmember
  have hview : item.view frame C.ty = item.taken u := by
    unfold Item.view
    rw [if_pos hchanged, if_neg (by simp [hroot]), hu]
  constructor
  · rw [hview]
    exact .member (.single item.name u (.inl hu))
  · rw [hview]
    rfl
  · rw [hview]
    rfl
  · exact fun hs => absurd hs unserved
  · intro h
    refine absurd ?_ hone
    simpa [Expr.ids, subterms, own?, bound?] using h

/-- Over a context that was not materialized, the owner is replaced by the context. -/
theorem Planner.ownOver_unchanged {t : Target} {fc : FieldConfig} {source : Resolve}
    (traits : t.field.Traits config c.schema.fresh fc source) {item : Item}
    (hitem : item.For t.toSelected fc source) {s s' : PlanState} (hfresh : 1 < c.schema.fresh)
    (admits : frame.Admits c.schema.fresh s t.context) (hchanged : frame.contextChanged = false)
    {e : Expr} {materialized : Bool} (h : c.contextExpr t frame s = .ok ((e, materialized), s')) :
    s' = s ∧ OwnOver frame t.context t.field item e materialized := by
  have howner : t.field.param.id ∉ t.context.ids := admits.not_mem traits.below
  have hview := Item.view_unchanged hchanged t.context.ty item
  have flat := admits.flat hchanged
  obtain ⟨own, hty⟩ := Resolve.own_swap (C := t.context) traits.plain (Nat.ne_of_lt traits.above)
    traits.bare
  have onContext : Over t.context t.field.resolve := by
    rw [traits.resolve]
    exact over_exprOver source traits.plain t.field.ty t.field.param .arguments
  have coherent : t.field.resolve.Coherent := by
    rw [traits.resolve]
    exact coherent_exprOver source traits.plain t.field.ty traits.flat Param.flat_arguments
  unfold Planner.contextExpr at h
  rw [if_neg (by simp [hchanged]), replaceOwner_eq onContext coherent admits.coherent howner] at h
  obtain ⟨h, rfl⟩ := run_pure_ok.mp h
  cases h
  refine ⟨rfl, ?_⟩
  have tyOver : source.tyOver t.context.ty t.field.ty = t.field.ty := by
    cases source with
    | member path => exact flat.along _ traits.plain
    | _ => rfl
  rw [traits.resolve]
  constructor
  · rw [hview, hitem.source]
    exact own
  · rw [hview, hitem.ty, hty, tyOver]
  · rw [hview]
    rfl
  · rw [hitem.ty]
    refine own_called t.field.name traits.plain ?_ hty admits.called
    rw [Resolve.reread_flat flat]
    exact own
  · rw [traits.resolve]
    intro h
    refine mentions_of_ids (f := Rule.pick []) (g := Rule.pick [(.param t.field.param, t.context)])
      traits.plain (admits.not_mem hfresh) (fun x r hr => by cases hr)
      (fun x r => ids_of_pick_owner) ?_
    rw [← traits.resolve] at h ⊢
    rw [swap_noPairs coherent]
    exact h

/-- The expression of a field over its context. -/
theorem Planner.contextExpr_ok {t : Target} (kept : c.Kept t.toSelected) {fc : FieldConfig}
    {source : Resolve} (traits : t.field.Traits config c.schema.fresh fc source) {item : Item}
    (hitem : item.For t.toSelected fc source) {s s' : PlanState} (hfresh : 1 < c.schema.fresh)
    (admits : frame.Admits c.schema.fresh s t.context) {e : Expr} {materialized : Bool}
    (h : c.contextExpr t frame s = .ok ((e, materialized), s')) :
    s' = s ∧ OwnOver frame t.context t.field item e materialized := by
  have hone : Param.arguments.id ∉ t.context.ids := admits.not_mem hfresh
  cases hchanged : frame.contextChanged with
  | false => exact Planner.ownOver_unchanged traits hitem hfresh admits hchanged h
  | true =>
    unfold Planner.contextExpr at h
    rw [if_pos hchanged] at h
    cases hroot : frame.isRoot with
    | true =>
      unfold Planner.materializedExpr at h
      rw [if_pos hroot] at h
      obtain ⟨h, rfl⟩ := run_pure_ok.mp h
      cases h
      exact ⟨rfl, ownOver_whole hchanged hroot ((admits.changed hchanged).2 hroot) hone⟩
    | false =>
      cases hmember : t.context.recordMember? t.name with
      | none => exact Planner.ownOver_over kept traits hitem hfresh admits hchanged hroot hmember h
      | some m =>
        unfold Planner.materializedExpr at h
        rw [if_neg (by simp [hroot]), hmember] at h
        obtain ⟨h, rfl⟩ := run_pure_ok.mp h
        cases h
        have hmember : t.context.recordMember? item.name = some e := hitem.name ▸ hmember
        exact ⟨rfl, ownOver_taken hchanged hroot (fun hs => (admits.called hs).2) hone hmember⟩

/-! ## Base expressions -/

/-- A base expression is the value of a field, as the frame reads it, over the context. -/
structure Based (low : Nat) (frame : Frame) (s : PlanState) (C : Expr) (item : Item) (base : Base) :
    Prop where
  own : ∀ final, s.Grows final →
    Own (final.Records item.arguments) C (item.view frame C.ty).source base.expr
  ty : base.expr.ty = (item.view frame C.ty).ty
  arrangement : (item.view frame C.ty).arrangement =
    if base.materialized then some {} else item.arrangement
  called : base.expr.Served → base.expr.Called ∧ base.expr.ty = item.ty
  coherent : base.expr.Coherent
  above : ∀ i ∈ base.expr.ids, low ≤ i
  below : ∀ i ∈ base.expr.ids, i < s.fresh
  binders : ∀ i ∈ base.expr.binders, i ∈ C.binders
  arguments : base.arguments = item.arguments

theorem Based.grows {low : Nat} {s s' : PlanState} {C : Expr} {item : Item} {base : Base}
    (h : Based low frame s C item base) (hs : s.Grows s') : Based low frame s' C item base :=
  { h with
    own := fun final hfinal => h.own final (hs.trans hfinal)
    below := fun i hi => Nat.lt_of_lt_of_le (h.below i hi) hs.fresh }

/-- Binding the record of arguments. -/
theorem Planner.bindArguments_ok {t : Target} {fc : FieldConfig} {source : Resolve}
    (traits : t.field.Traits config c.schema.fresh fc source) {item : Item} {s s' : PlanState}
    (hfresh : 1 < c.schema.fresh) (good : s.Good)
    (admits : frame.Admits c.schema.fresh s t.context) {e e' : Expr} {materialized : Bool}
    (own : OwnOver frame t.context t.field item e materialized)
    (h : bindArguments t item.arguments e s = .ok (e', s')) :
    s.Grows s' ∧ s'.Good ∧
      Based c.schema.fresh frame s' t.context item ⟨e', materialized, item.arguments⟩ := by
  have hone : Param.arguments.id ∉ t.context.ids := admits.not_mem hfresh
  have coherent : e.Coherent := own.own.coherent admits.coherent fun p hp => hp ▸ Param.flat_arguments
  have unread (hids : Param.arguments.id ∉ e.ids) :
      Based c.schema.fresh frame s t.context item ⟨e, materialized, item.arguments⟩ := by
    have inside : ∀ i ∈ e.ids, i ∈ t.context.ids := fun i hi => by
      rcases own.own.ids hi with h | ⟨p, rfl, rfl⟩
      · exact h
      · exact absurd hi hids
    refine ⟨fun final _ => own.own.occurring.mono fun p hp => ?_, own.ty, own.arrangement,
      own.called, coherent, fun i hi => admits.above i (inside i hi),
      fun i hi => admits.below i (inside i hi), fun i hi => own.own.binders hi, rfl⟩
    obtain ⟨rfl, hp⟩ := hp
    exact absurd (mem_ids.mpr ⟨_, hp, _, rfl, rfl⟩) hids
  unfold Planner.bindArguments at h
  rw [traits.argumentParam] at h
  by_cases hm : t.field.resolve.mentions .arguments = true
  · rw [if_pos hm] at h
    dsimp only at h
    by_cases he : e.mentions .arguments = true
    · rw [if_pos he] at h
      obtain ⟨p, s₁, hp, h⟩ := run_bind_ok.mp h
      obtain ⟨rfl, rfl⟩ := draw_param_ok.mp hp
      obtain ⟨_, s₂, hadd, h⟩ := run_bind_ok.mp h
      cases hadd
      have replaced : e.replaceParam .arguments (.param ⟨s.fresh, "args", Param.arguments.ty⟩) =
          pure (e.swap (Rule.pick [(.param .arguments,
            .param ⟨s.fresh, "args", Param.arguments.ty⟩)])) :=
        replaceAll_eq coherent (own.own.overContext.steady admits.coherent (pick_param_of_not_mem hone))
      rw [replaced, draw_pure] at h
      obtain ⟨rfl, rfl⟩ := run_pure_ok.mp h
      have grows := s.grows_bindNext "args" Param.arguments.ty (.value (.obj item.arguments))
      obtain ⟨own', hty, served, called⟩ :=
        own.own.swap_record (q := ⟨s.fresh, "args", Param.arguments.ty⟩) admits.coherent hone
          Param.flat_arguments rfl
      have hids : ∀ i, i ∈ (e.swap (Rule.pick [(.param .arguments,
          .param ⟨s.fresh, "args", Param.arguments.ty⟩)])).ids → i ∈ t.context.ids ∨ i = s.fresh := by
        intro i hi
        rcases own'.ids hi with h | ⟨p, rfl, rfl⟩
        · exact .inl h
        · exact .inr rfl
      refine ⟨grows, good.bindNext _ _ _, ⟨fun final hfinal => own'.mono fun p hp => ?_,
        hty.trans own.ty, own.arrangement, fun hs => ?_, own'.coherent admits.coherent ?_,
        fun i hi => ?_, fun i hi => ?_, fun i hi => own'.binders hi, rfl⟩⟩
      · subst hp
        exact ⟨hfinal.mem (List.mem_append_right _ (List.mem_singleton.mpr rfl)), rfl⟩
      · obtain ⟨hc, hci⟩ := own.called (served hs)
        exact ⟨called hc, hty.trans hci⟩
      · rintro p rfl
        exact Param.flat_arguments
      · rcases hids i hi with h | rfl
        · exact admits.above i h
        · exact admits.low
      · rcases hids i hi with h | rfl
        · exact Nat.lt_succ_of_lt (admits.below i h)
        · exact Nat.lt_succ_self _
    · rw [if_neg he] at h
      obtain ⟨rfl, rfl⟩ := run_pure_ok.mp h
      refine ⟨.refl s, good, unread fun hi => ?_⟩
      rcases own.own.occurring.ids hi with h | ⟨p, ⟨rfl, hp⟩, -⟩
      · exact hone h
      · exact he (mentions_iff.mpr ⟨_, hp, rfl⟩)
  · rw [if_neg hm] at h
    obtain ⟨rfl, rfl⟩ := run_pure_ok.mp h
    exact ⟨.refl s, good, unread fun hi => hm (own.record hi)⟩

/-- The base expression of a field is its value over the context. -/
theorem Planner.resolveBase_ok (built : config.build = .ok c.schema) {t : Target}
    (kept : c.Kept t.toSelected) {s s' : PlanState} (good : s.Good)
    (admits : frame.Admits c.schema.fresh s t.context) {r : Option Base}
    (h : c.resolveBase t frame s = .ok (r, s')) :
    ∃ base item, r = some base ∧ c.item config t.toSelected t.lineage t.path = .ok item ∧
      s.Grows s' ∧ s'.Good ∧ Based c.schema.fresh frame s' t.context item base := by
  obtain ⟨described, standard, hfresh⟩ := SchemaConfig.build_ok built
  obtain ⟨fc, source, traits⟩ := (described _ kept.field).traits
  obtain ⟨path, hkeep⟩ := kept.directed
  obtain ⟨-, direct⟩ := Planner.keep_standard standard hkeep
  unfold Planner.resolveBase at h
  obtain ⟨arguments, s₁, hlift, h₁⟩ := run_bind_ok.mp h
  obtain ⟨ha, hs⟩ := run_lift_ok.mp hlift
  obtain rfl : s₁ = s := hs
  obtain ⟨⟨e, materialized⟩, s₂, hc, h₂⟩ := run_bind_ok.mp h₁
  obtain ⟨e', s₃, hb, h₃⟩ := run_bind_ok.mp h₂
  obtain ⟨r', s₄, hd, h₄⟩ := run_bind_ok.mp h₃
  rw [direct] at hd
  obtain ⟨rfl, rfl⟩ := run_pure_ok.mp hd
  obtain ⟨rfl, rfl⟩ := run_pure_ok.mp h₄
  have hitem : ∃ item, c.item config t.toSelected t.lineage t.path = .ok item ∧
      item.arguments = arguments := ⟨_, bind_ok.mpr ⟨arguments, ha, rfl⟩, rfl⟩
  obtain ⟨item, hitem, rfl⟩ := hitem
  obtain ⟨rfl, own⟩ := Planner.contextExpr_ok kept traits (Planner.item_ok traits hitem) hfresh
    admits hc
  obtain ⟨grows, good', based⟩ := Planner.bindArguments_ok traits hfresh good admits own hb
  exact ⟨_, item, rfl, hitem, grows, good', based⟩

end Planner

end FieldPlan
