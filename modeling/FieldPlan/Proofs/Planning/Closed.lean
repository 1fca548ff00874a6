import FieldPlan.Proofs.Expr.Supplied
import FieldPlan.Proofs.Planning.Scoping
import FieldPlan.Proofs.Planning.SingleEvaluation

/-!
# Plans are closed

* `Plan.Closed` : everything that a plan reads is bound once, and its services are the ones it calls;
* `PassOutcome.closed`, `PassOutcome.supplied` : the plan of a pass is closed, and its execution is not
  short of a parameter or a service;
* `Planner.plans_closed` : this holds of all plans of an operation.
-/

namespace FieldPlan

/-! ## Closed plans -/

/-- A parameter occurs only as the service that a call goes to. -/
def Expr.OnlyCalled (p : Param) (e : Expr) : Prop :=
  p.id ∉ e.binders ∧ ∀ q : Param, q.id = p.id → e ≠ .param q ∧ ∀ x ∈ e.subterms, .param q ∉ x.operands

/-- Everything that a plan reads is bound, once, and its services are the ones that it binds and the
ones that it calls. -/
structure Plan.Closed (plan : Plan) : Prop where
  free : ∀ p, Expr.Loose (fun _ => False) p plan.body →
    p.id = plan.root.id ∨ (plan.bindings.countP fun b => b.1.id == p.id) = 1
  distinct : (plan.bindings.map (·.1.id)).Nodup
  apart : plan.root.id ∉ plan.bindings.map (·.1.id)
  unserved : ¬plan.body.Served
  onlyCalled : ∀ p name, (p, .service name) ∈ plan.bindings → plan.body.OnlyCalled p
  nodup : plan.services.Nodup
  bound_iff : ∀ name, name ∈ plan.services ↔ ∃ p, (p, .service name) ∈ plan.bindings
  called_iff : ∀ name, name ∈ plan.services ↔
    ∃ method, 0 < plan.body.calls plan.bindings name method

namespace Plan

/-- The numbers of the parameters that stand for services. -/
def Calls (plan : Plan) (i : Nat) : Prop := ∃ p name, (p, .service name) ∈ plan.bindings ∧ p.id = i

/-- The numbers of the parameters that stand for values. -/
def Holds (plan : Plan) (i : Nat) : Prop :=
  i = plan.root.id ∨ ∃ p v, (p, .value v) ∈ plan.bindings ∧ p.id = i

variable {plan : Plan}

theorem Calls.mem {i : Nat} (h : plan.Calls i) : i ∈ plan.bindings.map (·.1.id) := by
  obtain ⟨p, name, hp, rfl⟩ := h
  exact List.mem_map_of_mem hp

theorem Holds.not_calls (nodup : (plan.bindings.map (·.1.id)).Nodup)
    (apart : plan.root.id ∉ plan.bindings.map (·.1.id)) {i : Nat} (h : plan.Holds i) :
    ¬plan.Calls i := by
  rcases h with rfl | ⟨p, v, hp, rfl⟩
  · exact fun h => apart h.mem
  · rintro ⟨q, name, hq, hid⟩
    cases List.inj_on_of_nodup_map nodup hq hp hid

/-- The parameters that are bound, once. -/
theorem count_bindings (nodup : (plan.bindings.map (·.1.id)).Nodup) {i : Nat}
    (h : i ∈ plan.bindings.map (·.1.id)) : (plan.bindings.countP fun b => b.1.id == i) = 1 := by
  have once := List.count_eq_one_of_mem nodup h
  rwa [List.count, List.countP_map] at once

/-- In the environment of a plan its parameters stand for what they are bound to. -/
theorem env_supplies {σ : Type} {services : Services σ}
    (nodup : (plan.bindings.map (·.1.id)).Nodup)
    (apart : plan.root.id ∉ plan.bindings.map (·.1.id))
    (available : ∀ p name, (p, .service name) ∈ plan.bindings → ∃ s, services name = some s)
    (input : Json) :
    ∃ env : Env σ, plan.env services input = pure env ∧ env.Supplies plan.Calls plan.Holds := by
  have found : ∀ b ∈ plan.bindings, ∀ name, b.2 = .service name → ∃ s, services name = some s := by
    rintro ⟨p, b⟩ hb name rfl
    exact available p name hb
  obtain ⟨env, henv, -, hbound, hroot⟩ := plan.env_computes found nodup apart input
  refine ⟨env, henv.eq_pure, ?_, ?_⟩
  · rintro i (rfl | ⟨p, v, hp, rfl⟩)
    · unfold Scope.value at hroot
      split at hroot
      · exact ⟨_, ‹_›⟩
      · cases hroot
    · exact ⟨v, hbound _ hp⟩
  · rintro i ⟨p, name, hp, rfl⟩
    exact ⟨name, hbound _ hp⟩

end Plan

/-! ## Passes -/

section Passes

variable {config : SchemaConfig} {c : Planner} {frame : Frame} {s : Selected} {root : Param}
  {n n' : Nat} {w : Wanted} {plan : Plan}

/-- The plan of a pass is in scope of its bindings, and the services that it has gathered occur. -/
theorem PassOutcome.scoped
    (h : PassOutcome config c frame s root n n' (some w) (some plan)) (hroot : root.id < n) :
    (plan.bindings.map (·.1.id)).Nodup ∧ plan.root.id ∉ plan.bindings.map (·.1.id) ∧
      Expr.Scoped plan.Calls plan.Holds plan.body ∧
      ∀ name ∈ plan.services, ∃ p, (p, .service name) ∈ plan.bindings ∧ p.id ∈ plan.body.ids := by
  obtain ⟨final, body, -, outcome, hplan⟩ := h.planned
  cases outcome with
  | @some _ body grows good _ plans =>
    cases hplan
    have splits : final.Splits (Plan.Calls ⟨root, body, final.bindings, final.services⟩)
        (Plan.Holds ⟨root, body, final.bindings, final.services⟩) :=
      ⟨fun name p hp => ⟨p, name, (good.params name p hp).1, rfl⟩,
        fun arguments p hp => .inr ⟨p, _, hp.1, rfl⟩, fun i hi => hi.mem⟩
    refine ⟨good.nodup, grows.unbound_start hroot,
      (plans.renders final (.refl _) good).scoped splits (scoped_bound_param (.inl rfl)),
      fun name hn => ?_⟩
    rcases plans.uses name hn with hn | ⟨p, hp, hi⟩
    · cases hn
    · exact ⟨p, (good.params name p hp).1, hi⟩

/-- The plan of a pass is closed. -/
theorem PassOutcome.closed
    (h : PassOutcome config c frame s root n n' (some w) (some plan)) (hroot : root.id < n) :
    plan.Closed := by
  obtain ⟨nodup, apart, inside, uses⟩ := h.scoped hroot
  have gathered := h.gathered plan rfl
  have disjoint : ∀ i, plan.Holds i → ¬plan.Calls i := fun i hi => hi.not_calls nodup apart
  refine ⟨fun p hp => ?_, nodup, apart, inside.unserved disjoint, fun p name hp => ?_,
    gathered.nodup, fun name => ⟨fun hn => ?_, fun ⟨p, hp⟩ => gathered.bound p name hp⟩,
    fun name => ⟨fun hn => ?_, ?_⟩⟩
  · rcases inside.free hp with (hr | ⟨q, v, hq, hid⟩) | hcalled
    · exact .inl hr
    · exact .inr (plan.count_bindings nodup (hid ▸ List.mem_map_of_mem hq))
    · exact .inr (plan.count_bindings nodup hcalled.mem)
  · have called : ∀ {q : Param}, q.id = p.id → plan.Calls q.id := fun hid => ⟨p, name, hp, hid.symm⟩
    refine ⟨fun hb => inside.binder disjoint hb (called rfl), fun q hid => ⟨fun hbody => ?_, ?_⟩⟩
    · rw [hbody] at inside
      cases inside with
      | value hq => exact disjoint _ hq (called hid)
      | parts hn => cases hn
    · exact fun x hx hmem => inside.operand disjoint hx hmem (called hid)
  · obtain ⟨p, hp, -⟩ := uses name hn
    exact ⟨p, hp⟩
  · obtain ⟨p, hp, hi⟩ := uses name hn
    obtain ⟨q, method, args, t, hid, hx⟩ := inside.called disjoint ⟨p, name, hp, rfl⟩ hi
    refine ⟨method, List.countP_pos_iff.mpr ⟨_, hx, ?_⟩⟩
    simp only [Expr.isCall, denotes, beq_self_eq_true, Bool.true_and, List.any_eq_true]
    exact ⟨_, hp, by simp [hid]⟩
  · rintro ⟨method, hcalls⟩
    obtain ⟨x, hx, hcall⟩ := List.countP_pos_iff.mp hcalls
    cases x with
    | invoke r m args t =>
      obtain ⟨q, rfl, -⟩ := inside.receiver disjoint hx
      simp only [Expr.isCall, denotes, Bool.and_eq_true, List.any_eq_true] at hcall
      obtain ⟨-, ⟨p, b⟩, hb, hdenotes⟩ := hcall
      cases b with
      | value v => cases hdenotes
      | service found =>
        simp only [Bool.and_eq_true, beq_iff_eq] at hdenotes
        exact hdenotes.2 ▸ gathered.bound p found hb
    | _ => cases hcall

/-- The execution of the plan of a pass is not short of a parameter or a service. -/
theorem PassOutcome.supplied
    (h : PassOutcome config c frame s root n n' (some w) (some plan)) (hroot : root.id < n) {σ : Type}
    {services : Services σ} (available : ∀ name ∈ plan.services, (services name).isSome = true)
    (input : Json) : Supplied (plan.run services input) := by
  obtain ⟨nodup, apart, inside, -⟩ := h.scoped hroot
  have gathered := h.gathered plan rfl
  obtain ⟨env, henv, supplies⟩ := Plan.env_supplies nodup apart (fun p name hp =>
    Option.isSome_iff_exists.mp (available name (gathered.bound p name hp))) input
  unfold Plan.run
  rw [henv, pure_bind]
  exact inside.eval_supplied supplies

/-- A plan that calls no method has no services and no calls. -/
theorem PassOutcome.uncalled
    (h : PassOutcome config c frame s root n n' (some w) (some plan)) (hroot : root.id < n)
    (none : ∀ name method, plan.body.calls plan.bindings name method = 0) :
    plan.services = [] ∧ ∀ x ∈ plan.body.subterms, x.isInvoke = false := by
  obtain ⟨nodup, apart, inside, -⟩ := h.scoped hroot
  have disjoint : ∀ i, plan.Holds i → ¬plan.Calls i := fun i hi => hi.not_calls nodup apart
  have closed := h.closed hroot
  refine ⟨List.eq_nil_iff_forall_not_mem.mpr fun name hn => ?_, fun x hx => ?_⟩
  · obtain ⟨method, hcalls⟩ := (closed.called_iff name).mp hn
    exact absurd (none name method) (Nat.ne_of_gt hcalls)
  · cases x with
    | invoke r method args t =>
      obtain ⟨q, rfl, p, name, hp, hid⟩ := inside.receiver disjoint hx
      refine absurd (none name method) (Nat.ne_of_gt (List.countP_pos_iff.mpr ⟨_, hx, ?_⟩))
      simp only [Expr.isCall, denotes, beq_self_eq_true, Bool.true_and, List.any_eq_true]
      exact ⟨_, hp, by simp [hid]⟩
    | _ => rfl

end Passes

/-! ## Operations -/

/-- Every plan of an operation is closed, and its services are registered. In two passes the first one
has no services and no calls. With its services at hand the execution of a plan does not fail for
want of a parameter or a service. -/
theorem Planner.plans_closed {config : SchemaConfig} {c : Planner} {request : Request}
    (built : config.build = .ok c.schema) (requested : request.build c.schema = .ok c.tree)
    {op : PlannedOperation} (planned : c.plan = .ok op) {field : PlannedField}
    (hf : field ∈ op.fields) {pass : Pass} {plan : Plan}
    (hp : (pass, plan) ∈ field.plans c.options.separately) :
    plan.Closed ∧ (∀ r, c.registered = some r → ∀ name ∈ plan.services, r name = true) ∧
      (pass = .shape → plan.services = [] ∧ ∀ x ∈ plan.body.subterms, x.isInvoke = false) ∧
      ∀ {σ : Type} (services : Services σ), (∀ name ∈ plan.services, (services name).isSome = true) →
        ∀ input, Supplied (plan.run services input) := by
  have onSchema := Request.build_over (SchemaConfig.indexed built) requested
  obtain ⟨rootType, p, -, rfl, settles⟩ := plan_ok built onSchema planned
  obtain ⟨ss, -, hall⟩ := settles.accepted
  obtain ⟨s, -, accepts⟩ := exists_of_forall₂ hall hf
  obtain ⟨n, n', -, outcome⟩ := accepts.planned
  obtain ⟨frame, root, m, m', w, rfl, hroot, below, pass⟩ := outcome.plans hp
  refine ⟨pass.closed below, (pass.gathered plan rfl).registered, fun hshape => ?_,
    fun services available input => pass.supplied below available input⟩
  have wanted := hroot ▸ pass.wanted
  refine pass.uncalled below fun name method => Nat.eq_zero_of_le_zero ?_
  calc
    plan.body.calls plan.bindings name method ≤ w.calls name method := pass.called.1 name method
    _ = 0 := Planner.wanted_unserved built onSchema accepts.kept (hshape ▸ wanted) name method

open Zeros in
theorem plans_closed_zeros : ∃ plan, (Pass.services, plan) ∈ field.plans false ∧
    plan.services = ["numbers"] ∧ plan.Closed ∧
      Supplied (plan.run (services sameAnswers) .null) := by
  have some : field.shapePass.isSome = true := by decide +kernel
  obtain ⟨plan, hplan⟩ := Option.isSome_iff_exists.mp some
  have hp : (Pass.services, plan) ∈ field.plans planner.options.separately := by
    simp [PlannedField.plans, hplan, planner]
  obtain ⟨closed, -, -, supplied⟩ :=
    Planner.plans_closed (eq_okOf config.build (by decide +kernel))
      (eq_okOf (request.build schema) (by decide +kernel)) (eq_okOf planner.plan (by decide +kernel))
      mem_fields hp
  have called : field.shapePass.map (·.services) = Option.some ["numbers"] := by decide +kernel
  rw [hplan] at called
  exact ⟨plan, hp, Option.some.inj called, closed, supplied _ (fun _ _ => rfl) .null⟩

end FieldPlan
