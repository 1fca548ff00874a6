import FieldPlan.Planning.Operation
import FieldPlan.Proofs.Planning.Flattening
import FieldPlan.Proofs.Planning.Node

/-!
# Planning operations

* `Planner.planPass_ok` : a pass over a root parameter renders what is wanted of the root field;
* `Planner.planRoot_ok` : the one or two passes of a root field;
* `Planner.rootSelected`, `Selected.First` : the root fields that are selected; the first one of a
  name that can be planned is planned;
* `Planner.plan_ok` : the planned root fields of an operation.
-/

namespace FieldPlan

variable {config : SchemaConfig} {c : Planner}

/-! ## Passes -/

theorem PlanState.good_start (n : Nat) : PlanState.Good { fresh := n } :=
  ⟨by simp, by simp, fun _ _ h => by cases h⟩

/-- What a pass over a root parameter leaves behind: a plan, if anything is wanted of the root field.
-/
structure PassOutcome (config : SchemaConfig) (c : Planner) (frame : Frame) (s : Selected)
    (root : Param) (n n' : Nat) (w : Option Wanted) (plan : Option Plan) : Prop where
  wanted : c.wanted config frame.pass (c.options.maxDepth + 1) frame.isRoot s [] [s.node.name] = .ok w
  planned : ∃ (final : PlanState) (body : Option Expr), final.fresh = n' ∧
    Outcome config frame { fresh := n } final (.param root) s.node.name w body ∧
    plan = body.map fun body => ⟨root, body, final.bindings, final.services⟩
  gathered : ∀ found, plan = some found → Gathered c.registered found.bindings found.services

theorem PassOutcome.fresh_le {frame : Frame} {s : Selected} {root : Param} {n n' : Nat}
    {w : Option Wanted} {plan : Option Plan} (h : PassOutcome config c frame s root n n' w plan) :
    n ≤ n' := by
  obtain ⟨final, body, rfl, outcome, -⟩ := h.planned
  cases outcome with
  | none grows _ => exact grows.fresh
  | some grows _ _ _ => exact grows.fresh

theorem admits_root {frame : Frame} {root : Param} {n : Nat} (above : c.schema.fresh ≤ root.id)
    (below : root.id < n) (flat : frame.contextChanged = false → root.ty.Flat)
    (changed : frame.contextChanged = true → frame.pass = .services) :
    frame.Admits c.schema.fresh { fresh := n } (.param root) :=
  admits_param above below flat changed

/-- A pass over a root parameter renders what is wanted of the root field. -/
theorem Planner.planPass_ok (built : config.build = .ok c.schema) (onSchema : c.tree.Over c.schema)
    {s : Selected} (kept : c.Kept s) {root : Param} {frame : Frame} {n n' : Nat}
    (admits : frame.Admits c.schema.fresh { fresh := n } (.param root)) {plan : Option Plan}
    (h : c.planPass s root frame n = .ok (plan, n')) :
    ∃ w, PassOutcome config c frame s root n n' w plan := by
  unfold Planner.planPass at h
  obtain ⟨⟨body, final⟩, hplanned, h₁⟩ := bind_ok.mp h
  cases h₁
  obtain ⟨w, hw, outcome⟩ := Planner.planNode_ok built onSchema (c.options.maxDepth + 1) kept admits
    (PlanState.good_start n) hplanned
  have start : PlanState.Gathered c.registered { fresh := n } := Gathered.start
  have gathered := c.planNode_gathered _ s _ _ _ _ _ _ _ start hplanned
  refine ⟨w, hw, ⟨final, body, rfl, outcome, rfl⟩, fun found hfound => ?_⟩
  obtain ⟨body, -, rfl⟩ := Option.map_eq_some_iff.mp hfound
  exact gathered

/-! ## Root fields -/

/-- How a root field was planned: in one pass over the data, or in a shape pass over the data and,
if services are selected, a service pass over its result or else over the data. -/
inductive RootOutcome (config : SchemaConfig) (c : Planner) (rootType : String) (s : Selected)
    (n n' : Nat) : PlannedField → Prop
  | single {w : Option Wanted} {plan : Option Plan} :
    c.options.separately = false →
      PassOutcome config c ⟨.services, false, true⟩ s ⟨n, "data", .entity rootType false⟩ (n + 1) n' w
        plan →
      RootOutcome config c rootType s n n' ⟨s.node.name, plan, none⟩
  | shape {w : Option Wanted} {plan : Option Plan} :
    c.options.separately = true → c.tree.hasAnyServices s.id = false →
      PassOutcome config c ⟨.shape, false, true⟩ s ⟨n, "data", .entity rootType false⟩ (n + 1) n' w
        plan →
      RootOutcome config c rootType s n n' ⟨s.node.name, plan, none⟩
  | services {m : Nat} {w : Option Wanted} {plan : Option Plan} :
    c.options.separately = true → c.tree.hasAnyServices s.id = true →
      PassOutcome config c ⟨.shape, false, true⟩ s ⟨n, "data", .entity rootType false⟩ (n + 1) m none
        none →
      PassOutcome config c ⟨.services, false, true⟩ s ⟨n, "data", .entity rootType false⟩ m n' w
        plan →
      RootOutcome config c rootType s n n' ⟨s.node.name, none, plan⟩
  | both {m : Nat} {w : Option Wanted} {shaped : Wanted} {shape : Plan} {plan : Option Plan} :
    c.options.separately = true → c.tree.hasAnyServices s.id = true →
      PassOutcome config c ⟨.shape, false, true⟩ s ⟨n, "data", .entity rootType false⟩ (n + 1) m
        (some shaped) (some shape) →
      PassOutcome config c ⟨.services, true, true⟩ s ⟨m, s.node.name, shape.resultTy⟩ (m + 1) n' w
        plan →
      RootOutcome config c rootType s n n' ⟨s.node.name, some shape, plan⟩

theorem RootOutcome.name_eq {rootType : String} {s : Selected} {n n' : Nat} {field : PlannedField}
    (h : RootOutcome config c rootType s n n' field) : field.name = s.node.name := by
  cases h <;> rfl

theorem RootOutcome.fresh_le {rootType : String} {s : Selected} {n n' : Nat} {field : PlannedField}
    (h : RootOutcome config c rootType s n n' field) : n ≤ n' := by
  cases h with
  | single _ pass => exact Nat.le_of_succ_le pass.fresh_le
  | shape _ _ pass => exact Nat.le_of_succ_le pass.fresh_le
  | services _ _ shape pass =>
    exact Nat.le_trans (Nat.le_of_succ_le shape.fresh_le) pass.fresh_le
  | both _ _ shape pass =>
    exact Nat.le_trans (Nat.le_of_succ_le shape.fresh_le) (Nat.le_of_succ_le pass.fresh_le)

/-- The passes of a root field. -/
theorem Planner.planRoot_ok (built : config.build = .ok c.schema) (onSchema : c.tree.Over c.schema)
    {rootType : String} {s : Selected} (kept : c.Kept s) {n n' : Nat} (hn : c.schema.fresh ≤ n)
    {field : PlannedField} (h : c.planRoot rootType s n = .ok (field, n')) :
    RootOutcome config c rootType s n n' field := by
  unfold Planner.planRoot at h
  obtain ⟨data, n₁, hdata, h₁⟩ := run_bind_ok.mp h
  have drawn : data = ⟨n, "data", .entity rootType false⟩ ∧ n₁ = n + 1 := by
    cases hdata
    exact ⟨rfl, rfl⟩
  obtain ⟨rfl, rfl⟩ := drawn
  have admits : ∀ pass m, n + 1 ≤ m → Frame.Admits c.schema.fresh ⟨pass, false, true⟩
      { fresh := m } (.param ⟨n, "data", .entity rootType false⟩) := fun pass m hm =>
    admits_root hn hm (fun _ _ => rfl) (fun h => by cases h)
  split at h₁
  · rename_i hsingle
    obtain ⟨plan, n₂, hpass, h₂⟩ := run_bind_ok.mp h₁
    obtain ⟨rfl, rfl⟩ := run_pure_ok.mp h₂
    obtain ⟨w, outcome⟩ := Planner.planPass_ok built onSchema kept (admits _ _ (Nat.le_refl _)) hpass
    exact .single (by simpa using hsingle) outcome
  · rename_i hseparate
    have hseparate : c.options.separately = true := by simpa using hseparate
    obtain ⟨shape, n₂, hpass, h₂⟩ := run_bind_ok.mp h₁
    obtain ⟨w, outcome⟩ := Planner.planPass_ok built onSchema kept (admits _ _ (Nat.le_refl _)) hpass
    split at h₂
    · rename_i hservices
      obtain ⟨plan, n₃, hservice, h₃⟩ := run_bind_ok.mp h₂
      obtain ⟨rfl, rfl⟩ := run_pure_ok.mp h₃
      cases shape with
      | none =>
        obtain ⟨w', outcome'⟩ :=
          Planner.planPass_ok built onSchema kept (admits _ _ outcome.fresh_le) hservice
        have nothing : w = none := by
          obtain ⟨final, body, -, planned, hbody⟩ := outcome.planned
          cases planned with
          | none => rfl
          | some => cases hbody
        subst nothing
        exact .services hseparate hservices outcome outcome'
      | some shape =>
        unfold Planner.planServicePass at hservice
        obtain ⟨root, n₄, hroot, h₄⟩ := run_bind_ok.mp hservice
        have drawn : root = ⟨n₂, s.node.name, shape.resultTy⟩ ∧ n₄ = n₂ + 1 := by
          cases hroot
          exact ⟨rfl, rfl⟩
        obtain ⟨rfl, rfl⟩ := drawn
        have hn₂ : c.schema.fresh ≤ n₂ :=
          Nat.le_trans hn (Nat.le_of_succ_le outcome.fresh_le)
        obtain ⟨w', outcome'⟩ := Planner.planPass_ok built onSchema kept
          (admits_root hn₂ (Nat.lt_succ_self _) (fun h => by cases h) (fun _ => rfl)) h₄
        obtain ⟨final, body, hfinal, planned, hbody⟩ := outcome.planned
        cases planned with
        | none => cases hbody
        | some => exact .both hseparate hservices outcome outcome'
    · rename_i hservices
      obtain ⟨rfl, rfl⟩ := run_pure_ok.mp h₂
      exact .shape hseparate (by simpa using hservices) outcome

/-! ## Operations -/

/-- The root fields that are selected, as far as the roots can be expanded. -/
def Planner.rootSelected (c : Planner) : List Selected :=
  c.tree.roots.flatMap fun root => (c.expandRoot root).toOption.getD []

/-- The selected root fields are those of the flattenings of the roots that can be expanded. -/
theorem Planner.rootSelected_flattens {s : Selected} (h : s ∈ c.rootSelected) :
    ∃ root ∈ c.tree.roots, ∃ ss, c.Flattens [root] ss ∧ s ∈ ss := by
  obtain ⟨root, hroot, hs⟩ := List.mem_flatMap.mp h
  cases hss : c.expandRoot root with
  | error e =>
    rw [hss] at hs
    cases hs
  | ok ss =>
    rw [hss] at hs
    exact ⟨root, hroot, ss, expandRoot_flattens hss, hs⟩

/-- A selected root field before which all others of its name have failed. -/
def Selected.First (s : Selected) (selected : List Selected) (errors : List FieldError) : Prop :=
  ∃ before after, selected = before ++ s :: after ∧
    ∀ b ∈ before, b.node.name = s.node.name → ∃ e, ⟨s.node.name, e⟩ ∈ errors

/-- A selected root field that was planned. -/
structure Planner.Accepts (config : SchemaConfig) (c : Planner) (rootType : String)
    (errors : List FieldError) (selected : List Selected) (s : Selected) (field : PlannedField) :
    Prop where
  first : s.First selected errors
  kept : c.Kept s
  planned : ∃ n n', c.schema.fresh ≤ n ∧ RootOutcome config c rootType s n n' field

theorem Planner.Accepts.mono {rootType : String} {errors errors' : List FieldError}
    {selected selected' : List Selected} {s : Selected} {field : PlannedField}
    (h : Planner.Accepts config c rootType errors selected s field)
    (herrors : ∀ e ∈ errors, e ∈ errors') (hselected : selected <+: selected') :
    Planner.Accepts config c rootType errors' selected' s field := by
  obtain ⟨⟨before, after, rfl, hfirst⟩, kept, planned⟩ := h
  obtain ⟨more, rfl⟩ := hselected
  refine ⟨⟨before, after ++ more, by simp, fun b hb hname => ?_⟩, kept, planned⟩
  obtain ⟨e, he⟩ := hfirst b hb hname
  exact ⟨e, herrors _ he⟩

/-- The root fields that were planned after some of the selected ones. -/
structure Planner.Settles (config : SchemaConfig) (c : Planner) (rootType : String)
    (selected : List Selected) (p : Progress) : Prop where
  fresh : c.schema.fresh ≤ p.fresh
  accepted : ∃ ss, ss.Sublist selected ∧
    List.Forall₂ (Planner.Accepts config c rootType p.errors selected) ss p.fields
  settled : ∀ s ∈ selected, s.node.name ∈ p.fields.map (·.name) ∨
    ∃ e, ⟨s.node.name, e⟩ ∈ p.errors
  nodup : (p.fields.map (·.name)).Nodup

namespace Planner

variable {rootType : String} {selected : List Selected} {p p' : Progress}

theorem Settles.fail (h : Settles config c rootType selected p) (more : List FieldError) :
    Settles config c rootType selected { p with errors := p.errors ++ more } where
  fresh := h.fresh
  accepted := by
    obtain ⟨ss, hss, hall⟩ := h.accepted
    exact ⟨ss, hss, hall.imp fun _ _ ha =>
      ha.mono (fun _ he => List.mem_append_left _ he) (List.prefix_refl _)⟩
  settled s hs := (h.settled s hs).imp_right fun ⟨e, he⟩ => ⟨e, List.mem_append_left _ he⟩
  nodup := h.nodup

theorem Settles.skip (h : Settles config c rootType selected p) {s : Selected}
    (hs : s.node.name ∈ p.fields.map (·.name) ∨ ∃ e, ⟨s.node.name, e⟩ ∈ p.errors) :
    Settles config c rootType (selected ++ [s]) p where
  fresh := h.fresh
  accepted := by
    obtain ⟨ss, hss, hall⟩ := h.accepted
    exact ⟨ss, hss.trans (List.sublist_append_left _ _), hall.imp fun _ _ ha =>
      ha.mono (fun _ he => he) (List.prefix_append _ _)⟩
  settled s' hs' := by
    rcases List.mem_append.mp hs' with hs' | hs'
    · exact h.settled s' hs'
    · cases List.mem_singleton.mp hs'
      exact hs
  nodup := h.nodup

/-- A root field is planned unless one of its name is planned. -/
theorem addRootField_ok (built : config.build = .ok c.schema) (onSchema : c.tree.Over c.schema)
    {s : Selected} (kept : c.Kept s) (h : Settles config c rootType selected p)
    (hadd : c.addRootField rootType p s = .ok p') :
    Settles config c rootType (selected ++ [s]) p' := by
  unfold addRootField at hadd
  split at hadd
  · rename_i hold
    cases hadd
    exact h.skip (.inl (by simpa using hold))
  · rename_i hnew
    have hnew : s.node.name ∉ p.fields.map (·.name) := by simpa using hnew
    split at hadd
    · rename_i field fresh hplan
      cases hadd
      have outcome := planRoot_ok built onSchema kept h.fresh hplan
      obtain ⟨ss, hss, hall⟩ := h.accepted
      refine ⟨Nat.le_trans h.fresh outcome.fresh_le, ⟨ss ++ [s], ?_, ?_⟩, ?_, ?_⟩
      · exact hss.append (List.Sublist.refl _)
      · refine List.rel_append (hall.imp fun _ _ ha => ha.mono (fun _ he => he)
          (List.prefix_append _ _)) (.cons ⟨⟨selected, [], rfl, fun b hb hname => ?_⟩, kept, ?_⟩ .nil)
        · rcases h.settled b hb with hb | hb
          · exact absurd (hname ▸ hb) hnew
          · exact hname ▸ hb
        · exact ⟨_, _, h.fresh, outcome⟩
      · intro s' hs'
        rcases List.mem_append.mp hs' with hs' | hs'
        · exact (h.settled s' hs').imp_left fun hm => by simp [List.mem_append, hm]
        · cases List.mem_singleton.mp hs'
          exact .inl (by simp [outcome.name_eq])
      · simp only [List.map_append, List.map_cons, List.map_nil, List.nodup_append]
        refine ⟨h.nodup, by simp, fun a ha b hb => ?_⟩
        cases List.mem_singleton.mp hb
        rintro rfl
        exact hnew (outcome.name_eq ▸ ha)
    · rename_i e hplan
      unfold Progress.collect at hadd
      split at hadd
      · cases hadd
      · cases hadd
        refine (h.fail [⟨s.node.name, e⟩]).skip (.inr ⟨e, ?_⟩)
        exact List.mem_append_right _ (List.mem_singleton.mpr rfl)

theorem expandRoot_kept (standard : c.schema.Standard) (onSchema : c.tree.Over c.schema) {root : NodeId}
    {ss : List Selected} (h : c.expandRoot root = .ok ss) {s : Selected} (hs : s ∈ ss) :
    c.Kept s := by
  unfold expandRoot at h
  obtain ⟨parts, hparts, h₁⟩ := bind_ok.mp h
  cases h₁
  obtain ⟨part, hpart, heq⟩ := List.mem_filterMap.mp hs
  have sound := expand_sound standard onSchema hparts part hpart
  cases part with
  | node s' =>
    cases heq
    exact sound
  | extracted => cases heq

/-- What an operation plans are the selected root fields that can be planned, the first of each name.
-/
theorem plan_ok (built : config.build = .ok c.schema) (onSchema : c.tree.Over c.schema)
    {op : PlannedOperation} (h : c.plan = .ok op) :
    ∃ rootType p, c.schema.rootType c.tree.kind = some rootType ∧
      op = ⟨c.tree.kind, p.fields, p.errors⟩ ∧ Settles config c rootType c.rootSelected p := by
  obtain ⟨-, standard, -⟩ := SchemaConfig.build_ok built
  unfold plan at h
  split at h
  · cases h
  · rename_i rootType hroot
    obtain ⟨p, hfold, h₁⟩ := bind_ok.mp h
    cases h₁
    refine ⟨rootType, p, hroot, rfl, ?_⟩
    unfold rootSelected
    have start : Settles config c rootType [] { fresh := c.schema.fresh } :=
      ⟨Nat.le_refl _, ⟨[], .slnil, .nil⟩, by simp, by simp⟩
    refine foldlM_ok (fun roots p => Settles config c rootType
      (roots.flatMap fun root => (c.expandRoot root).toOption.getD []) p) hfold start ?_
    intro done root _ p p' _ settles hadd
    rw [List.flatMap_append, List.flatMap_singleton]
    unfold addRoot at hadd
    split at hadd
    · rename_i ss hss
      rw [hss]
      refine foldlM_ok (fun some p => Settles config c rootType
        (done.flatMap (fun root => (c.expandRoot root).toOption.getD []) ++ some) p) hadd ?_ ?_
      · rw [List.append_nil]
        exact settles
      · intro done' s rest p p' hsplit settles hadd
        rw [← List.append_assoc]
        have hsplit : ss = done' ++ s :: rest := hsplit
        have kept : c.Kept s := expandRoot_kept standard onSchema hss (by simp [hsplit])
        exact addRootField_ok built onSchema kept settles hadd
    · rename_i e he
      rw [he]
      unfold Progress.collect at hadd
      split at hadd
      · cases hadd
      · cases hadd
        show Settles config c rootType (_ ++ []) _
        rw [List.append_nil]
        exact settles.fail _

end Planner

end FieldPlan
