import FieldPlan.Proofs.Planning.Rendered
import FieldPlan.Proofs.Planning.SinglePass
import FieldPlan.Proofs.Planning.Succeeding
import FieldPlan.Proofs.Wanted.Passes

/-!
# Root fields in one pass and in two

* `PassOutcome.exists_plan`, `PassOutcome.exists_wanted` : a pass gives a plan just if it wants something;
* `Planner.Plans` : what is wanted of a root field can be planned;
* `RootOutcome.plannable`, `Planner.planRoot_succeeds` : a root field is planned, in one pass or in two,
  just if it can;
* `RootOutcome.computes` : then its plans give the value of what is wanted of it.
-/

namespace FieldPlan

variable {config : SchemaConfig} {c : Planner}

/-! ## Passes -/

/-- What a pass renders can be planned. -/
theorem PassOutcome.plannable {frame : Frame} {s : Selected} {root : Param} {n n' : Nat} {w : Wanted}
    {plan : Option Plan} (h : PassOutcome config c frame s root n n' (some w) plan) :
    (w.view frame root.ty).Plannable config c.registered := by
  obtain ⟨final, body, -, outcome, rfl⟩ := h.planned
  cases outcome with
  | some _ good _ plans =>
    exact (plans.renders final (.refl _) good).plannable good (h.gathered _ rfl)

/-- A pass gives a plan, if anything is wanted of the root field. -/
theorem PassOutcome.exists_plan {frame : Frame} {s : Selected} {root : Param} {n n' : Nat} {w : Wanted}
    {plan : Option Plan} (h : PassOutcome config c frame s root n n' (some w) plan) :
    ∃ found, plan = some found := by
  obtain ⟨final, body, -, outcome, rfl⟩ := h.planned
  cases outcome with
  | some => exact ⟨_, rfl⟩

theorem PassOutcome.plan_eq_none {frame : Frame} {s : Selected} {root : Param} {n n' : Nat}
    {plan : Option Plan} (h : PassOutcome config c frame s root n n' none plan) : plan = none := by
  obtain ⟨final, body, -, outcome, rfl⟩ := h.planned
  cases outcome with
  | none => rfl

/-- A pass that gives a plan wants something of the root field. -/
theorem PassOutcome.exists_wanted {frame : Frame} {s : Selected} {root : Param} {n n' : Nat}
    {w : Option Wanted} {plan : Plan} (h : PassOutcome config c frame s root n n' w (some plan)) :
    ∃ x, w = some x := by
  cases w with
  | none => cases h.plan_eq_none
  | some x => exact ⟨x, rfl⟩

/-- The plan of a shape pass has the type of what the pass wants. -/
theorem PassOutcome.resultTy_eq {s : Selected} {root : Param} {n n' : Nat} {w x : Wanted}
    {plan : Plan} (h : PassOutcome config c ⟨.shape, false, true⟩ s root n n' (some x) (some plan))
    (shaped : w.Shaped x) (hs : w.item.source.isService = false) : plan.resultTy = x.resultTy := by
  obtain ⟨final, body, -, outcome, hplan⟩ := h.planned
  cases outcome with
  | @some _ body _ good _ plans =>
    cases hplan
    have renders := plans.renders final (.refl _) good
    rw [Wanted.view_unchanged rfl] at renders
    exact shaped.ty_eq hs (not_served_param root) renders

/-! ## Planning -/

def Planner.Plans (config : SchemaConfig) (c : Planner) (s : Selected) : Prop :=
  ∃ w, c.wanted config .services (c.options.maxDepth + 1) true s [] [s.node.name] = .ok (some w) ∧
    w.Plannable config c.registered

theorem Planner.wanted_shape_served {s : Selected} (h : s.field.hasServices = true) {depth : Nat}
    {isRoot : Bool} {lineage : List NodeId} {path : Path} :
    c.wanted config .shape (depth + 1) isRoot s lineage path = .ok none :=
  wanted_iff.mpr (.served rfl h)

/-- A field of which the shape pass wants something needs no service. -/
theorem PassOutcome.unserved {s : Selected} {root : Param} {n n' : Nat} {w : Wanted}
    {plan : Option Plan} (h : PassOutcome config c ⟨.shape, false, true⟩ s root n n' (some w) plan) :
    s.field.hasServices = false := by
  cases hs : s.field.hasServices with
  | false => rfl
  | true => cases (Planner.wanted_shape_served hs).symm.trans h.wanted

section Roots

variable (built : config.build = .ok c.schema) (onSchema : c.tree.Over c.schema)
  (forward : c.tree.Forward) (divides : c.Divides)

include built onSchema forward divides

/-- A pass over a root parameter succeeds, if what is wanted of the root field can be planned. -/
theorem Planner.planPass_succeeds {s : Selected} (reached : c.Reaches s) (kept : c.Kept s)
    {root : Param} {frame : Frame} {n : Nat}
    (unserved : frame.pass = .shape → s.field.hasServices = false)
    (admits : frame.Admits c.schema.fresh { fresh := n } (.param root)) {r : Option Wanted}
    (hr : c.wanted config frame.pass (c.options.maxDepth + 1) frame.isRoot s [] [s.node.name] = .ok r)
    (able : ∀ w, r = some w → (w.view frame root.ty).Plannable config c.registered)
    (bare : r = none → frame.contextChanged = false ∧ ∀ item,
      c.item config s [] [s.node.name] = .ok item → item.Plannable config c.registered) :
    Succeeds (c.planPass s root frame) n := by
  obtain ⟨body, state, hbody⟩ := planNode_succeeds built onSchema forward divides _ reached kept
    unserved admits (PlanState.good_start n) (Expr.registered_of_not_served (not_served_param root)) hr able bare
  refine ⟨body.map fun body => ⟨root, body, state.bindings, state.services⟩, state.fresh, ?_⟩
  unfold Planner.planPass
  exact bind_ok.mpr ⟨(body, state), hbody, rfl⟩

variable (agree : config.PartsAgree)

include agree

/-- A shape pass that gives something wants the shape of what is wanted of the data, which comes from no
service. -/
theorem PassOutcome.shaped {s : Selected} (reached : c.Reaches s) (kept : c.Kept s) {root : Param}
    {n n' : Nat} {x : Wanted} {plan : Option Plan}
    (first : PassOutcome config c ⟨.shape, false, true⟩ s root n n' (some x) plan) {r : Option Wanted}
    (wanted : c.wanted config .services (c.options.maxDepth + 1) true s [] [s.node.name] = .ok r) :
    ∃ w, r = some w ∧ w.Shaped x ∧ w.item.source.isService = false ∧
      ∀ item, x = .leaf item → w = .leaf item := by
  have unserved := first.unserved
  obtain ⟨w, rfl, stands, shaped⟩ :=
    Planner.wanted_shaped built onSchema forward divides agree _ reached kept wanted
  obtain ⟨x', hx, ⟨hwanted, kind⟩ | ⟨-, hwanted⟩⟩ := shaped unserved
  · cases hwanted.symm.trans first.wanted
    exact ⟨w, rfl, hx, stands.isService_eq.trans unserved, kind rfl⟩
  · cases hwanted.symm.trans first.wanted

/-- What is wanted of a root field that is planned can be planned, in how many passes it was. -/
theorem RootOutcome.plannable (bare : c.tree.Bare) (unpaged : config.Unpaged c.schema)
    {rootType : String} {s : Selected} {n n' : Nat} {field : PlannedField} (reached : c.Reaches s)
    (kept : c.Kept s) (h : RootOutcome config c rootType s n n' field) : c.Plans config s := by
  obtain ⟨-, standard, -⟩ := SchemaConfig.build_ok built
  cases h with
  | single _ pass | services _ _ _ pass =>
    obtain ⟨w, rfl, -⟩ :=
      Planner.wanted_shaped built onSchema forward divides agree _ reached kept pass.wanted
    have able := pass.plannable
    rw [Wanted.view_unchanged rfl] at able
    exact ⟨w, pass.wanted, able⟩
  | shape _ none pass =>
    have wanted := pass.wanted
    rw [Planner.wanted_whole standard onSchema bare _ kept fun next n leads hn =>
      SelectionTree.not_hasServices forward none List.mem_cons_self leads hn] at wanted
    obtain ⟨w, rfl, -⟩ :=
      Planner.wanted_shaped built onSchema forward divides agree _ reached kept wanted
    have able := pass.plannable
    rw [Wanted.view_unchanged rfl] at able
    exact ⟨w, wanted, able⟩
  | both _ _ first second =>
    obtain ⟨w, rfl, hx, plain, -⟩ :=
      first.shaped built onSchema forward divides agree reached kept second.wanted
    have sound := Planner.wanted_sound built onSchema unpaged agree kept second.wanted
    have able := second.plannable
    have before := first.plannable
    rw [first.resultTy_eq hx plain] at able
    rw [Wanted.view_unchanged rfl] at before
    exact ⟨w, second.wanted, (hx.root_plannable sound rfl rfl).mpr ⟨before, able⟩⟩

/-- The shape pass of a root field succeeds, if all that is wanted of the field can be planned. -/
theorem Planner.planShape_succeeds (unpaged : config.Unpaged c.schema) {s : Selected}
    (reached : c.Reaches s) (kept : c.Kept s) {root : Param} {n : Nat}
    (admits : Frame.Admits c.schema.fresh ⟨.shape, false, true⟩ { fresh := n } (.param root))
    (h : c.Plans config s) : Succeeds (c.planPass s root ⟨.shape, false, true⟩) n := by
  obtain ⟨w, wanted, able⟩ := h
  cases hs : s.field.hasServices with
  | true =>
    refine ⟨none, n, ?_⟩
    unfold Planner.planPass
    rw [Planner.planNode, Planner.planField, if_pos (by simp [hs])]
    rfl
  | false =>
    obtain ⟨w, same, -, shape⟩ :=
      wanted_shaped built onSchema forward divides agree _ reached kept wanted
    cases same
    obtain ⟨x, hx, ⟨hwanted, -⟩ | ⟨-, hwanted⟩⟩ := shape hs
    · have sound := wanted_sound built onSchema unpaged agree kept wanted
      have both : w.Plannable config c.registered ↔ x.Plannable config c.registered ∧
          (w.view ⟨.services, true, true⟩ x.resultTy).Plannable config c.registered :=
        hx.root_plannable sound rfl rfl
      refine planPass_succeeds built onSchema forward divides reached kept (fun _ => hs) admits hwanted
        (fun y hy => ?_) fun h => by cases h
      cases hy
      rw [Wanted.view_unchanged rfl]
      exact (both.mp able).1
    · refine planPass_succeeds built onSchema forward divides reached kept (fun _ => hs) admits hwanted
        (fun y hy => by cases hy) fun _ => ⟨rfl, fun item hitem => ?_⟩
      cases wanted_iff.mp hwanted with
      | served _ served => cases hs.symm.trans served
      | nothing gathers _ =>
        cases wanted_iff.mp wanted with
        | scalar _ _ scalar => exact absurd scalar gathers.composite
        | carried _ carries => cases (keepsWhole_iff.mp carries).1
        | object found _ _ | list found _ _ =>
          cases hitem.symm.trans found.found
          exact able.item

/-- A root field is planned, in one pass or in two, if all that is wanted of it can be planned. -/
theorem Planner.planRoot_succeeds (unpaged : config.Unpaged c.schema) {rootType : String}
    {s : Selected} {n : Nat} (reached : c.Reaches s) (kept : c.Kept s) (hn : c.schema.fresh ≤ n)
    (h : c.Plans config s) : Succeeds (c.planRoot rootType s) n := by
  obtain ⟨w, wanted, able⟩ := h
  have admits : ∀ pass m, n + 1 ≤ m → Frame.Admits c.schema.fresh ⟨pass, false, true⟩
      { fresh := m } (.param ⟨n, "data", .entity rootType false⟩) := fun pass m hm =>
    admits_root hn hm (fun _ _ => rfl) (fun h => by cases h)
  have overData : ∀ m, n + 1 ≤ m → Succeeds
      (c.planPass s ⟨n, "data", .entity rootType false⟩ ⟨.services, false, true⟩) m := fun m hm => by
    refine planPass_succeeds built onSchema forward divides reached kept nofun (admits _ m hm) wanted
      (fun y hy => ?_) nofun
    cases hy
    rwa [Wanted.view_unchanged rfl]
  unfold Planner.planRoot
  refine .bind rfl ?_
  split
  · obtain ⟨plan, m, hplan⟩ := overData (n + 1) (Nat.le_refl _)
    exact .bind hplan (.pure _ _)
  · obtain ⟨plan, m, hplan⟩ := planShape_succeeds built onSchema forward divides agree unpaged reached
      kept (admits .shape (n + 1) (Nat.le_refl _)) ⟨w, wanted, able⟩
    obtain ⟨r, outcome⟩ := planPass_ok built onSchema kept (admits _ _ (Nat.le_refl _)) hplan
    refine .bind hplan ?_
    split
    · suffices second : Succeeds (c.planServicePass s ⟨n, "data", .entity rootType false⟩ plan) m by
        obtain ⟨service, m', hservice⟩ := second
        exact .bind hservice (.pure _ _)
      cases plan with
      | none => exact overData m outcome.fresh_le
      | some shape =>
        obtain ⟨x, rfl⟩ := outcome.exists_wanted
        obtain ⟨w, same, hx, plain, -⟩ :=
          outcome.shaped built onSchema forward divides agree reached kept wanted
        cases same
        have sound := wanted_sound built onSchema unpaged agree kept wanted
        have hm : c.schema.fresh ≤ m := Nat.le_trans hn (Nat.le_of_succ_le outcome.fresh_le)
        refine .bind rfl (planPass_succeeds built onSchema forward divides reached kept nofun
          (admits_root hm (Nat.lt_succ_self m) nofun fun _ => rfl) wanted (fun y hy => ?_) nofun)
        cases hy
        show (Wanted.view _ shape.resultTy w).Plannable config c.registered
        rw [outcome.resultTy_eq hx plain]
        exact ((hx.root_plannable sound rfl rfl).mp able).2
    · exact .pure _ _

/-! ## Values -/

section Values

variable {s : Selected} {rootType : String} {σ : Type} {services : Services σ} {answers : Answers}
  {w : Wanted} {data : Json}

omit forward divides agree in
/-- A pass over the data gives a plan for the value of what it wants. -/
theorem PassOutcome.overData_computes (kept : c.Kept s) (hs : services.AnswerBy answers)
    (respect : answers.Respect) {pass : Pass} {n m m' : Nat} {plan : Option Plan}
    (h : PassOutcome config c ⟨pass, false, true⟩ s ⟨n, "data", .entity rootType false⟩ m m' (some w)
      plan) (hm : n < m) (evaluated : w.Evaluated config answers false data) :
    ∃ found, plan = some found ∧
      Computes (found.run services data) (w.value config answers false data) := by
  obtain ⟨-, standard, -⟩ := SchemaConfig.build_ok built
  obtain ⟨found, rfl⟩ := h.exists_plan
  have regular := Planner.wanted_regular standard onSchema kept h.wanted
  have view : w.view ⟨pass, false, true⟩ (.entity rootType false) = w := Wanted.view_unchanged rfl _ w
  have run := h.run_computes hs respect hm (view.symm ▸ regular) (view.symm ▸ evaluated)
  exact ⟨found, rfl, view ▸ run⟩

/-- A service pass over the result of a shape pass gives the value that is wanted of the data. -/
theorem PassOutcome.both_computes (unpaged : config.Unpaged c.schema) (reached : c.Reaches s)
    (kept : c.Kept s) (hs : services.AnswerBy answers) (respect : answers.Respect) {n m n' : Nat}
    {x : Wanted} {shape : Plan} {plan : Option Plan}
    (first : PassOutcome config c ⟨.shape, false, true⟩ s ⟨n, "data", .entity rootType false⟩ (n + 1) m
      (some x) (some shape))
    (second : PassOutcome config c ⟨.services, true, true⟩ s ⟨m, s.node.name, shape.resultTy⟩ (m + 1) n'
      (some w) plan) (evaluated : w.Evaluated config answers false data)
    (readable : w.Readable config answers false data) :
    Computes (PlannedField.run services ⟨s.node.name, some shape, plan⟩ data)
      ((w.value config answers false data).map some) := by
  obtain ⟨-, standard, -⟩ := SchemaConfig.build_ok built
  obtain ⟨plan, rfl⟩ := second.exists_plan
  obtain ⟨w, same, hx, plain, kind⟩ :=
    first.shaped built onSchema forward divides agree reached kept second.wanted
  cases same
  have sound := Planner.wanted_sound built onSchema unpaged agree kept second.wanted
  have regular := Planner.wanted_regular standard onSchema kept second.wanted
  obtain ⟨evaluatedX, given⟩ := hx.value plain evaluated readable
  obtain ⟨_, same, runShape⟩ :=
    first.overData_computes built onSchema kept hs respect (Nat.lt_succ_self n) evaluatedX
  cases same
  show Computes (shape.run services data >>= _) _
  cases hm : x.value config answers false data with
  | none =>
    have nothing : w.value config answers false data = none :=
      Option.eq_none_iff_forall_ne_some.mpr fun r hr => by
        obtain ⟨r', hr'⟩ := given r hr
        cases hm.symm.trans hr'
    rw [hm] at runShape
    rw [nothing]
    exact runShape.stop _
  | some result =>
    rw [hm] at runShape
    rw [runShape.eq_pure, pure_bind]
    have there : (w.view ⟨.services, true, true⟩ x.resultTy).Evaluated config answers false result ∧
        (w.view ⟨.services, true, true⟩ x.resultTy).value config answers false result =
          w.value config answers false data :=
      hx.root_value sound plain rfl rfl evaluated readable hm
    have regularResult : (w.view ⟨.services, true, true⟩ x.resultTy).Regular :=
      hx.root_regular sound regular rfl rfl
    rw [← first.resultTy_eq hx plain] at there regularResult
    have runService := second.run_computes hs respect (Nat.lt_succ_self m) regularResult there.1
    rw [there.2] at runService
    cases result with
    | null =>
      rw [hx.value_null kind plain hm]
      exact .pure _
    | _ => exact runService.map some

/-- The plans of a root field give the value that is wanted of it, in one pass or in two. -/
theorem RootOutcome.computes (bare : c.tree.Bare) (unpaged : config.Unpaged c.schema) {n n' : Nat}
    {field : PlannedField} (reached : c.Reaches s) (kept : c.Kept s)
    (h : RootOutcome config c rootType s n n' field) (hs : services.AnswerBy answers)
    (respect : answers.Respect)
    (wanted : c.wanted config .services (c.options.maxDepth + 1) true s [] [s.node.name] =
      .ok (some w)) (readable : w.Readable config answers false data) :
    Computes (field.run services data) ((w.value config answers false data).map some) := by
  obtain ⟨-, standard, -⟩ := SchemaConfig.build_ok built
  have evaluated : w.Evaluated config answers false data := by
    obtain ⟨w', wanted', able⟩ := h.plannable built onSchema forward divides agree bare unpaged reached kept
    cases wanted.symm.trans wanted'
    have sound := Planner.wanted_sound built onSchema unpaged agree kept wanted
    exact readable.evaluated sound (Planner.wanted_regular standard onSchema kept wanted) able
  cases h with
  | single _ pass =>
    cases pass.wanted.symm.trans wanted
    obtain ⟨plan, rfl, run⟩ :=
      pass.overData_computes built onSchema kept hs respect (Nat.lt_succ_self n) evaluated
    exact run.map some
  | services _ _ first pass =>
    cases pass.wanted.symm.trans wanted
    obtain ⟨plan, rfl, run⟩ :=
      pass.overData_computes built onSchema kept hs respect first.fresh_le evaluated
    exact run.map some
  | shape _ none pass =>
    have whole := pass.wanted
    rw [Planner.wanted_whole standard onSchema bare _ kept fun next n leads hn =>
      SelectionTree.not_hasServices forward none List.mem_cons_self leads hn] at whole
    cases whole.symm.trans wanted
    obtain ⟨plan, rfl, run⟩ :=
      pass.overData_computes built onSchema kept hs respect (Nat.lt_succ_self n) evaluated
    exact run.map some
  | both _ _ first second =>
    cases second.wanted.symm.trans wanted
    exact first.both_computes built onSchema forward divides agree unpaged reached kept hs respect second
      evaluated readable

end Values

end Roots

end FieldPlan
