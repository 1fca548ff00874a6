import FieldPlan.Proofs.Planning.Emitted
import FieldPlan.Proofs.Planning.Gathering
import FieldPlan.Proofs.Planning.Loose

/-!
# Planning children

* `Plans`, `PlansAll` : what planning a node, and the children of a node, leaves behind;
* `PlansChild` : a way of planning nodes that renders what is wanted of them;
* `Planner.planChildren_ok` : the children of a node render what is wanted of its value;
* `Planner.wrapOnce_ok` : an object that comes from a service.
-/

namespace FieldPlan

open Expr

variable {config : SchemaConfig} {c : Planner} {frame : Frame} {s s' s'' : PlanState} {C : Expr}

/-- An expression that was planned between two states over a context. -/
structure Plans (config : SchemaConfig) (frame : Frame) (s s' : PlanState) (C : Expr) (w : Wanted)
    (e : Expr) : Prop where
  emitted : Emitted s s' C e
  uses : s.Uses s' e.ids
  renders : ∀ final : PlanState, s'.Grows final → final.Good →
    Renders config final C (w.view frame C.ty) e

/-- What planning a node leaves behind: an expression, if anything is wanted of the node. -/
inductive Outcome (config : SchemaConfig) (frame : Frame) (s s' : PlanState) (C : Expr)
    (name : String) : Option Wanted → Option Expr → Prop
  | none : s.Grows s' → s'.Good → s.Uses s' [] → Outcome config frame s s' C name none none
  | some {w : Wanted} {e : Expr} : s.Grows s' → s'.Good → w.name = name →
    Plans config frame s s' C w e → Outcome config frame s s' C name (some w) (some e)

/-- Children that were planned between two states over a context. -/
structure PlansAll (config : SchemaConfig) (frame : Frame) (s s' : PlanState) (C : Expr)
    (ws : List Wanted) (children : Children) : Prop where
  grows : s.Grows s'
  good : s'.Good
  emitted : ∀ child ∈ children, Emitted s s' C child.2
  uses : s.Uses s' (children.flatMap (·.2.ids))
  keys : Dict.keys children = ws.map (·.name)
  nodup : (Dict.keys children).Nodup
  renders : ∀ final : PlanState, s'.Grows final → final.Good →
    RendersAll config final C (Wanted.viewAll frame C.ty ws) children

/-! ## Adding children -/

theorem Wanted.viewAll_append (τ : Ty) (ws us : List Wanted) :
    Wanted.viewAll frame τ (ws ++ us) = Wanted.viewAll frame τ ws ++ Wanted.viewAll frame τ us := by
  induction ws with
  | nil => rfl
  | cons w ws ih => rw [List.cons_append, Wanted.viewAll, Wanted.viewAll, ih, List.cons_append]

theorem RendersAll.concat {final : PlanState} {ws : List Wanted} {fields : List (String × Expr)}
    {w : Wanted} {e : Expr} (h : RendersAll config final C ws fields)
    (hw : Renders config final C w e) :
    RendersAll config final C (ws ++ [w]) (fields ++ [(w.name, e)]) := by
  induction fields generalizing ws with
  | nil =>
    cases h
    exact .cons hw .nil
  | cons field fields ih =>
    cases h with
    | cons hfirst hrest => exact .cons hfirst (ih hrest)

namespace PlansAll

variable {ws : List Wanted} {children : Children}

theorem start (good : s.Good) : PlansAll config frame s s C [] [] :=
  ⟨.refl s, good, by simp, .of_eq rfl, rfl, List.nodup_nil, fun _ _ _ => .nil⟩

theorem contains_iff (h : PlansAll config frame s s' C ws children) (name : String) :
    children.contains name = ws.any (·.name == name) := by
  rw [Bool.eq_iff_iff, Dict.contains_iff, h.keys]
  simp

theorem isEmpty_eq (h : PlansAll config frame s s' C ws children) :
    List.isEmpty children = ws.isEmpty := by
  have hlen : List.length children = ws.length := by
    simpa [Dict.keys] using congrArg List.length h.keys
  cases children <;> cases ws <;> first | rfl | cases hlen

theorem grow (h : PlansAll config frame s s' C ws children) (hs : s'.Grows s'') (good : s''.Good)
    (uses : s'.Uses s'' []) : PlansAll config frame s s'' C ws children where
  grows := h.grows.trans hs
  good := good
  emitted child hc := (h.emitted child hc).grows hs
  uses := (h.uses.trans hs uses).mono (by simp)
  keys := h.keys
  nodup := h.nodup
  renders final hfinal := h.renders final (hs.trans hfinal)

theorem add (h : PlansAll config frame s s' C ws children) {w : Wanted} {e : Expr}
    (hnew : children.contains w.name = false) (hs : s'.Grows s'') (good : s''.Good)
    (hw : Plans config frame s' s'' C w e) :
    PlansAll config frame s s'' C (ws ++ [w]) (children.insert w.name e) := by
  have fresh : w.name ∉ Dict.keys children := by
    rw [← Dict.contains_iff, hnew]
    simp
  have uses := h.uses.trans hs hw.uses
  have emitted : Emitted s s'' C e :=
    { coherent := hw.emitted.coherent
      below := hw.emitted.below
      binders := fun i hi => (hw.emitted.binders i hi).imp_right fun ⟨hle, hb⟩ =>
        ⟨Nat.le_trans h.grows.fresh hle, hb⟩ }
  rw [Dict.insert_of_not_mem fresh]
  refine ⟨h.grows.trans hs, good, fun child hc => ?_, uses.mono (by simp), ?_, ?_,
    fun final hfinal hgood => ?_⟩
  · rcases List.mem_append.mp hc with hc | hc
    · exact (h.emitted child hc).grows hs
    · cases List.mem_singleton.mp hc
      exact emitted
  · simp [Dict.keys, ← h.keys]
  · simp only [Dict.keys, List.map_append, List.map_cons, List.map_nil]
    refine List.nodup_append.mpr ⟨h.nodup, by simp, fun a ha b hb => ?_⟩
    cases List.mem_singleton.mp hb
    rintro rfl
    exact fresh ha
  · rw [Wanted.viewAll_append]
    have hr := (h.renders final (hs.trans hfinal) hgood).concat (hw.renders final hfinal hgood)
    rw [Wanted.name_view] at hr
    exact hr

end PlansAll

/-! ## Contributions -/

/-- A part of a service-backed field over a context of the shape pass. -/
theorem plans_extracted (built : config.build = .ok c.schema) {f : Field}
    (hf : f ∈ c.schema.fields) {part : Extracted} (hpart : part ∈ f.extracted)
    (admits : frame.Admits c.schema.fresh s C) (hpass : frame.pass = .shape) :
    ∃ path e, part.expr.pathFrom? f.param = some path ∧ part.name = extractedName f.name path ∧
      part.expr.replaceParam f.param C = pure e ∧
      Plans config frame s s C (.leaf (.ofPart f.name path)) e := by
  obtain ⟨described, -, -⟩ := SchemaConfig.build_ok built
  obtain ⟨fc, source, traits⟩ := (described f hf).traits
  rw [traits.extracted_eq] at hpart
  obtain ⟨path, hpath, rfl⟩ := List.mem_map.mp hpart
  have hne : path ≠ [] := fun h => nil_not_mem_partPaths traits.plain (h ▸ hpath)
  have hchanged : frame.contextChanged = false := by
    rw [Bool.eq_false_iff]
    intro h
    have := (admits.changed h).1
    rw [hpass] at this
    cases this
  have hid : f.param.id ∉ C.ids := admits.not_mem traits.below
  have root : (Expr.param f.param).swap (Rule.pick [(.param f.param, C)]) = C :=
    swap_some (by simp [pick_param, isParam])
  obtain ⟨chain, hty⟩ := chain_swap (C := C) (f := Rule.pick [(.param f.param, C)])
    (fun _ _ _ => by simp [pick_param, isParam]) (.param f.param) []
    (root.symm ▸ .nil) (t := .json) rfl path
  have coherent : (memberChain (.param f.param) .json path).Coherent :=
    coherent_memberChain (coherent_param _) traits.flat .json path
  have run := replaceOwner_eq (over_memberChain (C := C) (.param f.param) .json path) coherent
    admits.coherent hid
  refine ⟨path, _, pathFrom_memberChain f.param path, rfl, run, ?_⟩
  generalize (memberChain (.param f.param) .json path).swap (Rule.pick [(.param f.param, C)]) = e
    at chain hty
  rw [root, (admits.flat hchanged).along _ hne] at hty
  have unserved : ¬e.Served := fun h => admits.unserved hpass (chain.served_iff.mp h)
  have ecoherent := chain.coherent admits.coherent
  refine ⟨⟨ecoherent, fun i hi => admits.below i (chain.ids ▸ hi), fun i hi =>
    .inl (chain.binders ▸ hi)⟩, .of_eq rfl, fun final hfinal _ => ?_⟩
  rw [Wanted.view, Item.view_unchanged hchanged, ← PlanState.bound_of_not_served (s := final) ecoherent unserved]
  refine .leaf ⟨.member chain, hty, ⟨{}, rfl, .plain rfl⟩, fun i hi => ?_,
    PlanState.covers_of_not_served unserved, ecoherent⟩
  have hi : i ∈ C.binders := chain.binders ▸ hi
  rw [hfinal.boundIds (admits.below i (ids_of_binders hi))]
  exact admits.apart i hi

/-- A way of planning nodes in frames below a root that renders what is wanted of them. -/
def PlansChild (config : SchemaConfig) (c : Planner) (planChild : Planner.PlanChild)
    (wantChild : Pass → Bool → Selected → List NodeId → Path → Except PlanError (Option Wanted)) :
    Prop :=
  ∀ {s s' : PlanState} {frame : Frame} {child : Selected} {C : Expr} {lineage : List NodeId}
    {path : Path} {r : Option Expr}, c.Kept child → frame.Admits c.schema.fresh s C → s.Good →
    planChild child C lineage path frame s = .ok (r, s') →
    ∃ w, wantChild frame.pass frame.isRoot child lineage path = .ok w ∧
      Outcome config frame s s' C child.node.name w r

/-- One more contribution to the children of a node. -/
theorem Planner.addContribution_ok (built : config.build = .ok c.schema) {planChild : PlanChild}
    {wantChild : Pass → Bool → Selected → List NodeId → Path → Except PlanError (Option Wanted)}
    (hchild : PlansChild config c planChild wantChild) {t : Target}
    (admits : frame.below.Admits c.schema.fresh s C) {ws : List Wanted} {children : Children}
    (planned : PlansAll config frame.below s s' C ws children) {part : Contribution}
    (hpart : c.Contributes frame.pass part) {children' : Children}
    (h : addContribution planChild t C { frame with isRoot := false } children part s' =
      .ok (children', s'')) :
    ∃ ws', addWanted (fun child => wantChild frame.pass false child (t.id :: t.lineage)
        (t.path.child child.node.name)) ws part = .ok ws' ∧
      PlansAll config frame.below s s'' C ws' children' := by
  have admits' := admits.grows planned.grows
  cases part with
  | node child =>
    unfold Planner.addContribution at h
    unfold Planner.addWanted
    dsimp only at h ⊢
    rw [planned.contains_iff] at h
    split at h
    · rename_i hold
      cases h
      rw [if_pos hold]
      exact ⟨ws, rfl, planned⟩
    · rename_i hnew
      obtain ⟨r, s₁, hrun, hrest⟩ := run_bind_ok.mp h
      obtain ⟨w, hw, outcome⟩ := hchild hpart admits' planned.good hrun
      rw [if_neg hnew, show wantChild frame.pass false child _ _ = .ok w from hw]
      cases outcome with
      | none grows good uses =>
        cases hrest
        exact ⟨ws, rfl, planned.grow grows good uses⟩
      | some grows good hname plans =>
        cases hrest
        rw [← hname, ← planned.contains_iff] at hnew
        refine ⟨_, rfl, ?_⟩
        rw [← hname]
        exact planned.add (Bool.eq_false_iff.mpr hnew) grows good plans
  | extracted field part =>
    obtain ⟨hpass, f, hf, rfl, -, hmem⟩ := hpart
    obtain ⟨path, e, hpath, hname, hreplace, plans⟩ :=
      plans_extracted built hf hmem admits' hpass
    unfold Planner.addContribution at h
    unfold Planner.addWanted
    dsimp only at h ⊢
    rw [planned.contains_iff] at h
    split at h
    · rename_i hold
      cases h
      rw [if_pos hold]
      exact ⟨ws, rfl, planned⟩
    · rename_i hnew
      rw [hreplace, draw_pure] at h
      cases h
      rw [if_neg hnew, hpath]
      refine ⟨_, rfl, ?_⟩
      rw [hname] at hnew ⊢
      rw [← planned.contains_iff] at hnew
      exact planned.add (w := .leaf (.ofPart f.name path)) (Bool.eq_false_iff.mpr hnew) (.refl _)
        planned.good plans

/-- The children of a node render what is wanted of its value. -/
theorem Planner.planChildren_ok (built : config.build = .ok c.schema)
    (onSchema : c.tree.Over c.schema) {planChild : PlanChild}
    {wantChild : Pass → Bool → Selected → List NodeId → Path → Except PlanError (Option Wanted)}
    (hchild : PlansChild config c planChild wantChild) {t : Target} (good : s.Good)
    (admits : frame.below.Admits c.schema.fresh s C) {children : Children}
    (h : c.planChildren planChild t C frame s = .ok (children, s')) :
    ∃ parts ws, c.expand frame.pass t.path t.node.children = .ok parts ∧
      parts.foldlM (addWanted fun child => wantChild frame.pass false child (t.id :: t.lineage)
        (t.path.child child.node.name)) [] = .ok ws ∧
      PlansAll config frame.below s s' C ws children := by
  obtain ⟨-, standard, -⟩ := SchemaConfig.build_ok built
  unfold Planner.planChildren at h
  obtain ⟨parts, s₁, hlift, h₁⟩ := run_bind_ok.mp h
  obtain ⟨hexpand, hs₁⟩ := run_lift_ok.mp hlift
  obtain rfl : s₁ = s := hs₁
  have admitted : ∀ x ∈ parts, c.Contributes frame.pass x := expand_sound standard onSchema hexpand
  have fold := run_foldlM_ok (fun done children s' => ∃ ws,
    done.foldlM (addWanted fun child => wantChild frame.pass false child (t.id :: t.lineage)
      (t.path.child child.node.name)) [] = .ok ws ∧
    PlansAll config frame.below s₁ s' C ws children) h₁ ⟨[], rfl, .start good⟩ ?_
  · obtain ⟨ws, hws, planned⟩ := fold
    exact ⟨parts, ws, hexpand, hws, planned⟩
  · rintro done part rest children s₂ children' s₃ hparts ⟨ws, hws, planned⟩ hstep
    obtain ⟨ws', hadd, planned⟩ := addContribution_ok built hchild admits planned
      (admitted part (by simp [hparts])) hstep
    refine ⟨ws', ?_, planned⟩
    rw [List.foldlM_append, hws]
    exact bind_ok.mpr ⟨ws, rfl, bind_ok.mpr ⟨ws', hadd, rfl⟩⟩

/-! ## Objects that come from services -/

theorem PlanState.not_bound_of_fresh {s final : PlanState} (good : s.Good) {name : String} {t : Ty}
    (h : s.next.Grows final) : (⟨s.fresh, name, t⟩ : Param).id ∉ final.boundIds := by
  rw [h.boundIds (Nat.lt_succ_self s.fresh)]
  exact fun hb => absurd (good.boundIds_lt hb) (Nat.lt_irrefl _)

/-- A parameter in place of a called base expression passes on what that one does. -/
theorem renames_rewrap {final : PlanState} (good : final.Good) {e field : Expr} (he : e.Coherent)
    (called : e.Called) {p : Param} (hp : p.ty = e.ty) : field.Renames (rewrap final e p) := by
  intro x _ r hr
  obtain ⟨rfl, hx⟩ := rewrap_some hr
  refine ⟨⟨p, rfl⟩, ?_⟩
  rcases hx with hx | hx
  · exact called.sameFront_of_eqv hx hp
  · refine called.bound.sameFront_of_eqv hx (hp.trans ?_)
    exact ((good.renames (e := e)).ty_swap he).symm

section Wrapping

variable {t : Target} {base e : Expr} {item : Item} {children : Children} {ws : List Wanted}
  {site : Site} {fc : FieldConfig}

/-- Replacing the base expression in a child by a parameter. -/
theorem Planner.wrapChild_eq {s s₁ : PlanState} (good : s₁.Good) (coherent : e.Coherent)
    (called : e.Called) (given : ∀ p : Param, p.Given → p.ty.sameShape e.ty = false)
    (renders : RendersAll config s₁ e ws children)
    (emitted : ∀ child ∈ children, Emitted s s₁ e child.2) {p : Param} (hp : p.ty = e.ty)
    {child : String × Expr} (hc : child ∈ children) :
    (do
      let e' ← child.2.replaceAll [(e, .param p), (s₁.bound e, .param p)]
      let e' ← if frame.contextChanged then e'.replaceParamsByType e.ty (.param p) else pure e'
      pure (child.1, e') : Fresh (String × Expr)) =
      pure (child.1, child.2.swap (rewrap s₁ e p)) := by
  have renames : child.2.Renames (rewrap s₁ e p) := renames_rewrap good coherent called hp
  have first : child.2.replaceAll [(e, .param p), (s₁.bound e, .param p)] =
      pure (child.2.swap (rewrap s₁ e p)) := renames.replaceAll_eq (emitted child hc).coherent
  have second : (child.2.swap (rewrap s₁ e p)).replaceParamsByType e.ty (.param p) =
      pure (child.2.swap (rewrap s₁ e p)) := by
    refine replaceParamsByType_eq (renames.coherent_swap (emitted child hc).coherent) fun q hq => ?_
    rcases loose_rewrapped (fun field hf {K} hq => renders.loose good hf hq)
      (List.mem_map.mpr ⟨child, hc, rfl⟩) hq with rfl | hgiven
    · exact .inl rfl
    · exact .inr (given q hgiven)
  rw [first, pure_bind]
  cases frame.contextChanged with
  | false => rfl
  | true => simp only [if_true, second, pure_bind]

/-- A parameter that occurs in a child occurs in the base expression, or still with another parameter
in place of that one. -/
theorem mem_ids_rewrap (final : PlanState) (e : Expr) (p : Param) {field : Expr} {i : Nat}
    (hi : i ∈ field.ids) :
    i ∈ (field.swap (rewrap final e p)).ids ∨ i ∈ (final.bound e).ids := by
  refine (mem_ids_swap hi).imp_right ?_
  rintro ⟨x, -, hx, hi⟩
  obtain ⟨r, hr⟩ := Option.isSome_iff_exists.mp hx
  rcases (rewrap_some hr).2 with h | h
  · exact PlanState.ids_bound ((ids_of_eqv h).mpr hi)
  · exact (ids_of_eqv h).mpr hi

/-- The value of an object that comes from a service is bound to a parameter, which takes its place in the
children. -/
def PlanState.wrapped (final : PlanState) (e : Expr) (p : Param) (name : String) (children : Children) :
    Expr :=
  .letIn p (final.bound e) (.nullGuarded (.param p) (.record name (rewrapped final e p children)))

theorem ids_wrapped (final : PlanState) (e : Expr) (p : Param) (name : String) {i : Nat}
    (hi : i ∈ children.flatMap (·.2.ids) ++ (final.bound e).ids) :
    i ∈ (final.wrapped e p name children).ids := by
  have value : ∀ i ∈ (final.bound e).ids, i ∈ (final.wrapped e p name children).ids :=
    fun i hi => ids_of_child List.mem_cons_self hi
  rcases List.mem_append.mp hi with hi | hi
  · obtain ⟨child, hc, hi⟩ := List.mem_flatMap.mp hi
    rcases mem_ids_rewrap final e p hi with hi | hi
    · refine ids_of_child (List.mem_cons_of_mem _ List.mem_cons_self) (mem_ids_guarded (.inr ?_))
      exact mem_ids_record (List.mem_map_of_mem hc) hi
    · exact value i hi
  · exact value i hi

section States

variable {s s₀ s₁ s₃ : PlanState} {p : Param} (emitted : Emitted s s₀ C e)
  (planned : PlansAll config frame.below s₀ s₁ e ws children) (grows : s₁.Grows s₃) (good : s₃.Good)
  (called : e.Called) (hpty : p.ty = e.ty) (drawn : p.id = s₃.fresh)
  (apart : ∀ final : PlanState, s₃.next.Grows final → p.id ∉ final.boundIds)

include emitted planned grows good called hpty drawn apart

theorem emitted_wrapped (hs : s.Grows s₀) (name : String) :
    Emitted s s₃.next C (s₃.wrapped e p name children) := by
  have boundTy : (s₃.bound e).ty = e.ty := (good.renames (e := e)).ty_swap emitted.coherent
  have fresh : p.id < s₃.next.fresh := drawn ▸ Nat.lt_succ_self s₃.fresh
  have later : s.fresh ≤ p.id := drawn ▸ ((hs.trans planned.grows).trans grows).fresh
  refine emitted_letIn later fresh (apart _ (.refl _)) (boundTy.trans hpty.symm) ?_
    (emitted_nullGuarded (emitted_param fresh) (emitted_record fun field hf => ?_))
  · exact ((emitted.grows (planned.grows.trans grows)).bound good).grows s₃.grows_next
  · obtain ⟨child, hc, rfl⟩ := List.mem_map.mp hf
    have grown : s₁.Grows s₃.next := grows.trans s₃.grows_next
    have child : Emitted s s₃.next C child.2 :=
      emitted.trans (planned.grows.trans grown) ((planned.emitted child hc).grows grown) hs
    refine child.swap (renames_rewrap good emitted.coherent called hpty) fun x q hq => ?_
    cases (rewrap_some hq).1
    exact fresh

omit good in
theorem renders_wrapped (served : e.Served) (covers : s₃.Covers e)
    (reads : ∀ final : PlanState, s₁.Grows final → final.Covers e →
      Reads config final C (item.view frame C.ty) base e)
    (hty : e.ty = (item.view frame C.ty).ty) {final : PlanState} (hfinal : s₃.next.Grows final)
    (hgood : final.Good) :
    Renders config final C (Wanted.view frame C.ty (.object item ws))
      (s₃.wrapped e p (item.view frame C.ty).name children) := by
  have hfrom : s₃.Grows final := s₃.grows_next.trans hfinal
  have same : s₃.bound e = final.bound e := (hfrom.bound covers).symm
  have fields : rewrapped s₃ e p children = rewrapped final e p children := by
    unfold rewrapped rewrap
    rw [same]
  rw [Wanted.view, PlanState.wrapped, fields, same, ← hty]
  refine .wrapped (reads final (grows.trans hfrom) (hfrom.covers covers)) served called
    (planned.renders final (grows.trans hfrom) hgood) planned.nodup hpty (apart final hfinal)
    (fun field hf hid => ?_) fun hsource field hf i hi => ?_
  · have hlt := (planned.emitted field hf).below _ hid
    rw [drawn] at hlt
    exact absurd grows.fresh (Nat.not_le.mpr hlt)
  · have below := (planned.emitted field hf).below i (ids_of_binders hi)
    rcases (planned.emitted field hf).binders i hi with hi | ⟨hle, hb⟩
    · obtain ⟨x, hx, q, hq, -⟩ := mem_binders.mp hi
      rw [hsource.binders x hx] at hq
      cases hq
    · refine ⟨fun hid => absurd (emitted.below i hid) (Nat.not_lt.mpr hle), ?_⟩
      rwa [(grows.trans hfrom).boundIds below]

end States

/-- An object that comes from a service is fetched once. -/
theorem Planner.wrapOnce_ok (hx : t.field.extensions = fc.extensions)
    (served : e.Served) (called : e.Called)
    (given : ∀ p : Param, p.Given → p.ty.sameShape e.ty = false) {s s₀ s₁ s₂ : PlanState}
    (emitted : Emitted s s₀ C e) (hs : s.Grows s₀) (uses : s.Uses s₀ [])
    (planned : PlansAll config frame.below s₀ s₁ e ws children)
    (reads : ∀ final : PlanState, s₁.Grows final → final.Covers e →
      Reads config final C (item.view frame C.ty) base e)
    (hname : item.name = t.name) (hty : e.ty = (item.view frame C.ty).ty) {e' : Expr}
    (h : c.wrapOnce t site e children frame s₁ = .ok (e', s₂)) :
    s₁.Grows s₂ ∧ s₂.Good ∧ Plans config frame s s₂ C (.object item ws) e' := by
  unfold Planner.wrapOnce at h
  obtain ⟨bound, s₃, hbind, h₁⟩ := run_bind_ok.mp h
  obtain ⟨grows, good, covers, rfl⟩ := bindServices_ok planned.good emitted.coherent hbind
  obtain ⟨p, s₄, hdraw, h₂⟩ := run_bind_ok.mp h₁
  obtain ⟨rfl, rfl⟩ := draw_param_ok.mp hdraw
  have boundTy : (s₃.bound e).ty = e.ty := (good.renames (e := e)).ty_swap emitted.coherent
  generalize hp : (⟨s₃.fresh, t.name, (s₃.bound e).ty⟩ : Param) = p at h₂
  have hpty : p.ty = e.ty := hp ▸ boundTy
  have fields := mapM_eq_pure (m := Planning) (f := fun child => draw do
      let e' ← child.2.replaceAll [(e, .param p), (s₃.bound e, .param p)]
      let e' ← if frame.contextChanged then e'.replaceParamsByType e.ty (.param p) else pure e'
      pure (child.1, e')) (g := fun child => (child.1, child.2.swap (rewrap s₃ e p)))
    children fun child hc => by
      rw [wrapChild_eq good emitted.coherent called given (planned.renders s₃ grows good)
        (fun child hc => (planned.emitted child hc).grows grows) hpty hc]
      rfl
  dsimp only at h₂
  rw [fields, pure_bind, Planner.selection_eq hx, pure_bind] at h₂
  obtain ⟨he', hs₂⟩ := run_pure_ok.mp h₂
  subst hs₂
  have he' : s₃.wrapped e p t.name children = e' := he'
  subst he'
  have apart : ∀ final : PlanState, s₃.next.Grows final → p.id ∉ final.boundIds := fun final hfinal =>
    hp ▸ PlanState.not_bound_of_fresh good hfinal
  have drawn : p.id = s₃.fresh := hp ▸ rfl
  have used : s.Uses s₃ (children.flatMap (·.2.ids) ++ (s₃.bound e).ids) :=
    (uses.trans planned.grows planned.uses).trans grows
      (bindServices_uses planned.good emitted.coherent hbind)
  have hview : (item.view frame C.ty).name = t.name := (Item.name_view _ _ _).trans hname
  refine ⟨grows.trans s₃.grows_next, good.next, ⟨?_, used.mono fun i => ids_wrapped s₃ e p t.name,
    fun final hfinal hgood => ?_⟩⟩
  · exact emitted_wrapped emitted planned grows good called hpty drawn apart hs t.name
  · rw [← hview]
    exact renders_wrapped emitted planned grows called hpty drawn apart served covers reads hty
      hfinal hgood

end Wrapping

end FieldPlan
