import FieldPlan.Proofs.Planning.Guarded
import FieldPlan.Proofs.Planning.SinglePass

/-!
# Services are called once

* `Planner.wanted_unserved` : the shape pass wants no value of a service;
* `Plan.situations` : where a plan is evaluated;
* `Plan.CallsOwn` : the expression of a field itself calls only what the field comes from;
* `PassOutcome.called` : the plan of a pass calls a method no more often than values are wanted of it,
  not in a sort key, and not for what is wanted of an object that is null;
* `PlannedField.plans` : the plans of a root field with their passes;
* `Planner.single_evaluation` : this holds of all plans of an operation.
-/

namespace FieldPlan

variable {config : SchemaConfig} {c : Planner}

/-! ## Passes -/

/-- The shape pass wants no value of a service. -/
theorem Planner.wanted_unserved (built : config.build = .ok c.schema) (onSchema : c.tree.Over c.schema)
    {depth : Nat} {isRoot : Bool} {s : Selected} (kept : c.Kept s) {lineage : List NodeId}
    {path : Path} {w : Wanted}
    (h : c.wanted config .shape depth isRoot s lineage path = .ok (some w)) (name : ServiceName)
    (method : String) : w.calls name method = 0 := by
  obtain ⟨-, standard, -⟩ := SchemaConfig.build_ok built
  have own : ∀ {s item}, Planner.Selects config c .shape s item →
      item.source.calls name method = 0 := by
    intro s item selects
    obtain ⟨fc, source, traits, found⟩ := selects.described built
    have unserved := selects.unserved rfl
    rw [traits.hasServices_eq] at unserved
    rw [found.source]
    cases source with
    | service => cases unserved
    | _ => rfl
  have all : ∀ {ws : List Wanted}, (∀ w ∈ ws, w.calls name method = 0) →
      Wanted.callsAll name method ws = 0 := by
    intro ws h
    induction ws with
    | nil => rfl
    | cons w ws ih =>
      obtain ⟨hw, hws⟩ := List.forall_mem_cons.mp h
      rw [Wanted.callsAll, hw, ih hws]
  refine wanted_induction (P := fun w => w.calls name method = 0) standard onSchema (fun _ _ _ => rfl)
    (fun _ selects => (own selects :)) ?_ ?_ depth kept h
  · intro s item ws selects _ h
    rw [Wanted.calls, own selects, all h]
  · intro s item ws selects _ h
    rw [Wanted.calls, own selects, all h]

section Passes

variable {frame : Frame} {s : Selected} {root : Param} {n n' : Nat} {w : Wanted} {plan : Plan}

/-- Where a plan is evaluated: its parameters mean what they are bound to and the root parameter means
the input, as in the environment of every run (`Plan.env_computes`). -/
def Plan.situations (plan : Plan) : Situations := fun ρ v =>
  (∀ b ∈ plan.bindings, ρ b.1.id = some b.2.meaning) ∧ ρ.value plan.root = some v

/-- An expression of a plan calls what a field itself comes from, and nothing else. -/
def Plan.CallsOwn (plan : Plan) (item : Item) (own : Expr) : Prop :=
  ∀ name method, own.calls plan.bindings name method ≤ item.source.calls name method

/-- The plan of a pass calls a method no more often than values are wanted of it, not in a sort key,
and not for what is wanted of an object that is null. -/
theorem PassOutcome.called (h : PassOutcome config c frame s root n n' (some w) (some plan)) :
    (∀ name method, plan.body.calls plan.bindings name method ≤ w.calls name method) ∧
      plan.body.KeysPure ∧ ∀ answers : Answers, answers.Respect →
        Guarded plan.CallsOwn Expr.Gates config answers plan.situations false
          (w.view frame plan.root.ty) plan.body := by
  obtain ⟨final, body, -, outcome, hplan⟩ := h.planned
  cases outcome with
  | @some _ body grows good _ plans =>
    cases hplan
    have rendered := plans.renders final (.refl _) good
    have calls : ∀ name method own, Expr.calls final.bindings name method own =
      final.shown name method (fun _ => false) own := fun _ _ _ => Expr.shown_nothing.symm
    refine ⟨fun name method => ?_, rendered.keysPure (Expr.keysPure_leaf rfl rfl),
      fun answers respect => ?_⟩
    · calc
        Expr.calls final.bindings name method body
          = final.shown name method (fun _ => false) body := calls name method body
        _ ≤ (w.view frame root.ty).calls name method :=
          rendered.shown_le good (shown_param root) (shown_bound_param root)
        _ ≤ w.calls name method := Wanted.calls_view_le name method frame _ w
    · have guarded := rendered.guarded respect good
        (iff_of_false Bool.false_ne_true (not_served_param root))
        (final.hidden_param (fun _ => false) root)
      refine guarded.mono (fun item own h name method => ?_) Expr.Behind.gates ?_
      · exact (calls name method own).trans_le (h name method)
      · rintro ρ v ⟨bound, input⟩
        exact ⟨.param root, bound, (Expr.value_param root).trans input⟩

end Passes

/-! ## Operations -/

def PlannedField.plans (field : PlannedField) (separately : Bool) : List (Pass × Plan) :=
  field.shapePass.toList.map (Prod.mk (if separately then .shape else .services)) ++
    field.servicePass.toList.map (Prod.mk .services)

theorem RootOutcome.plans {rootType : String} {s : Selected} {n n' : Nat} {field : PlannedField}
    (h : RootOutcome config c rootType s n n' field) {pass : Pass} {plan : Plan}
    (hp : (pass, plan) ∈ field.plans c.options.separately) :
    ∃ (frame : Frame) (root : Param) (m m' : Nat) (w : Wanted), frame.pass = pass ∧
      frame.isRoot = true ∧ root.id < m ∧
        PassOutcome config c frame s root m m' (some w) (some plan) := by
  suffices found : ∃ (frame : Frame) (root : Param) (m m' : Nat) (w : Option Wanted),
      frame.pass = pass ∧ frame.isRoot = true ∧ root.id < m ∧
        PassOutcome config c frame s root m m' w (some plan) by
    obtain ⟨frame, root, m, m', w, hpass, hroot, hm, outcome⟩ := found
    obtain ⟨final, body, -, planned, hplan⟩ := outcome.planned
    cases planned with
    | none => cases hplan
    | @some w => exact ⟨frame, root, m, m', w, hpass, hroot, hm, outcome⟩
  unfold PlannedField.plans at hp
  cases h with
  | @single _ found separately outcome =>
    obtain ⟨rfl, rfl⟩ : found = some plan ∧ Pass.services = pass := by simpa [separately] using hp
    exact ⟨_, _, _, _, _, rfl, rfl, Nat.lt_succ_self _, outcome⟩
  | @shape _ found separately _ outcome =>
    obtain ⟨rfl, rfl⟩ : found = some plan ∧ Pass.shape = pass := by simpa [separately] using hp
    exact ⟨_, _, _, _, _, rfl, rfl, Nat.lt_succ_self _, outcome⟩
  | @services _ _ found separately _ shape outcome =>
    obtain ⟨rfl, rfl⟩ : found = some plan ∧ Pass.services = pass := by simpa [separately] using hp
    exact ⟨_, _, _, _, _, rfl, rfl, shape.fresh_le, outcome⟩
  | @both _ _ _ _ found separately _ shape outcome =>
    rcases List.mem_append.mp hp with hp | hp
    · obtain ⟨rfl, rfl⟩ : pass = .shape ∧ plan = _ := by simpa [separately] using hp
      exact ⟨_, _, _, _, _, rfl, rfl, Nat.lt_succ_self _, shape⟩
    · obtain ⟨rfl, rfl⟩ : found = some plan ∧ Pass.services = pass := by simpa using hp
      exact ⟨_, _, _, _, _, rfl, rfl, Nat.lt_succ_self _, outcome⟩

/-- A plan calls a method no more often than values of it are wanted and not in a sort key. What is
wanted of an object is evaluated behind a gate by the value of the object itself, whatever the services
do, and the gate calls only what the object comes from: nothing is called for what is wanted of null. -/
theorem Planner.single_evaluation {request : Request} (built : config.build = .ok c.schema)
    (requested : request.build c.schema = .ok c.tree) {op : PlannedOperation}
    (planned : c.plan = .ok op) {field : PlannedField} (hf : field ∈ op.fields) {pass : Pass}
    {plan : Plan} (hp : (pass, plan) ∈ field.plans c.options.separately) :
    ∃ (s : Selected) (frame : Frame) (w : Wanted), s.First c.rootSelected op.errors ∧
      s.node.name = field.name ∧ frame.pass = pass ∧ frame.isRoot = true ∧
      c.wanted config pass (c.options.maxDepth + 1) true s [] [s.node.name] = .ok (some w) ∧
      (∀ name method, plan.body.calls plan.bindings name method ≤ w.calls name method) ∧
      (pass = .shape → ∀ name method, w.calls name method = 0) ∧
      plan.body.KeysPure ∧ ∀ answers : Answers, answers.Respect →
        Guarded plan.CallsOwn Expr.Gates config answers plan.situations false
          (w.view frame plan.root.ty) plan.body := by
  have onSchema := Request.build_over (SchemaConfig.indexed built) requested
  obtain ⟨rootType, p, -, rfl, settles⟩ := plan_ok built onSchema planned
  obtain ⟨ss, -, hall⟩ := settles.accepted
  obtain ⟨s, -, accepts⟩ := exists_of_forall₂ hall hf
  obtain ⟨n, n', -, outcome⟩ := accepts.planned
  obtain ⟨frame, root, m, m', w, rfl, hroot, -, pass⟩ := outcome.plans hp
  have wanted := hroot ▸ pass.wanted
  obtain ⟨calls, keys, guarded⟩ := pass.called
  refine ⟨s, frame, w, accepts.first, outcome.name_eq.symm, rfl, hroot, wanted, calls,
    fun hshape => ?_, keys, guarded⟩
  exact Planner.wanted_unserved built onSchema accepts.kept (hshape ▸ wanted)

open Zeros in
theorem single_evaluation_zeros : ∃ plan w frame, (Pass.services, plan) ∈ field.plans false ∧
    Zeros.wanted = some w ∧ w.calls "numbers" "describe" = 2 ∧
      plan.body.calls plan.bindings "numbers" "describe" ≤ 2 ∧ plan.body.KeysPure ∧
      Guarded plan.CallsOwn Expr.Gates Zeros.config sameAnswers plan.situations false
        (w.view frame plan.root.ty) plan.body := by
  have some : field.shapePass.isSome = true := by decide +kernel
  obtain ⟨plan, hplan⟩ := Option.isSome_iff_exists.mp some
  have hp : (Pass.services, plan) ∈ field.plans planner.options.separately := by
    simp [PlannedField.plans, hplan, planner]
  obtain ⟨s, frame, w, ⟨before, after, hsplit, -⟩, -, -, -, hw, calls, -, keys, guarded⟩ :=
    Planner.single_evaluation (eq_okOf config.build (by decide +kernel))
      (eq_okOf (request.build schema) (by decide +kernel)) (eq_okOf planner.plan (by decide +kernel))
      mem_fields hp
  obtain rfl : s = root := by
    have hmem : s ∈ planner.rootSelected := by simp [hsplit]
    simpa [rootSelected_eq] using hmem
  have known : planner.wanted config .services (planner.options.maxDepth + 1) true root []
      [root.node.name] = .ok Zeros.wanted := eq_okOf _ _
  have wanted : Zeros.wanted = Option.some w := Except.ok.inj (known.symm.trans hw)
  have twice : Zeros.wanted.map (Wanted.calls "numbers" "describe") = Option.some 2 := by
    decide +kernel
  rw [wanted] at twice
  have two : w.calls "numbers" "describe" = 2 := Option.some.inj twice
  exact ⟨plan, w, frame, hp, wanted, two, two ▸ calls _ _, keys,
    guarded sameAnswers fun _ _ _ _ _ => rfl⟩

end FieldPlan
