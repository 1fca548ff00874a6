import FieldPlan.Proofs.Planning.Meaning
import FieldPlan.Proofs.Planning.Operation
import FieldPlan.Proofs.Planning.Wanting
import FieldPlan.Proofs.Selection.Tree

/-!
# Plans of one pass

* `Plan.env_computes` : in the environment of a plan its parameters mean what they are bound to;
* `PassOutcome.computes` : a pass gives the value of what is wanted of its root field;
* `Planner.single_pass_correct` : the only pass of a planned root field gives the value that the
  selection has on the data.
-/

namespace FieldPlan

/-! ## Environments -/

section Environments

variable {σ : Type} {services : Services σ}

theorem Binding.slot_computes (b : Binding)
    (hs : ∀ name, b = .service name → ∃ s, services name = some s) :
    ∃ slot : Slot σ, Computes (b.slot services) (some slot) ∧ slot.meaning = b.meaning ∧
      ∀ name s, slot = .service name s → services name = some s := by
  cases b with
  | value v => exact ⟨.value v, .pure _, rfl, fun name s h => by cases h⟩
  | service name =>
    obtain ⟨s, hfound⟩ := hs name rfl
    refine ⟨.service name s, ?_, rfl, fun name' s' h => by cases h; exact hfound⟩
    intro state
    simp only [Binding.slot, Services.get, hfound]
    rfl

theorem Env.scope_cons (env : Env σ) (i j : Nat) (slot : Slot σ) :
    Env.scope ((i, slot) :: env) j = if j = i then some slot.meaning else env.scope j := by
  unfold Env.scope
  by_cases h : j = i
  · subst h
    simp
  · simp [h, Ne.symm h]

/-- Binding distinct parameters changes what these mean and nothing else. -/
theorem bindings_compute (bindings : List (Param × Binding))
    (hs : ∀ b ∈ bindings, ∀ name, b.2 = .service name → ∃ s, services name = some s)
    (nodup : (bindings.map (·.1.id)).Nodup) (env : Env σ) (he : env.From services) :
    ∃ env' : Env σ, Computes (bindings.foldlM (fun env entry => do
        let slot ← entry.2.slot services
        pure ((entry.1.id, slot) :: env)) env) (some env') ∧ env'.From services ∧
      (∀ b ∈ bindings, env'.scope b.1.id = some b.2.meaning) ∧
      ∀ i ∉ bindings.map (·.1.id), env'.scope i = env.scope i := by
  induction bindings generalizing env with
  | nil => exact ⟨env, .pure _, he, by simp, fun _ _ => rfl⟩
  | cons b rest ih =>
    obtain ⟨hnew, nodup⟩ := List.nodup_cons.mp nodup
    obtain ⟨hfirst, hs⟩ := List.forall_mem_cons.mp hs
    obtain ⟨slot, hslot, hmeaning, hfrom⟩ := b.2.slot_computes hfirst
    have extended : Env.From services ((b.1.id, slot) :: env) := by
      intro e hmem
      rcases List.mem_cons.mp hmem with rfl | hmem
      · exact hfrom
      · exact he e hmem
    obtain ⟨env', hrest, hfrom', hbound, hother⟩ := ih hs nodup _ extended
    refine ⟨env', ?_, hfrom', fun b' hb' => ?_, fun i hi => ?_⟩
    · rw [List.foldlM_cons, hslot.eq_pure, pure_bind, pure_bind]
      exact hrest
    · rcases List.mem_cons.mp hb' with rfl | hb'
      · rw [hother _ hnew, Env.scope_cons, if_pos rfl, hmeaning]
      · exact hbound b' hb'
    · rw [List.map_cons, List.mem_cons, not_or] at hi
      rw [hother i hi.2, Env.scope_cons, if_neg hi.1]

/-- In the environment of a plan its parameters mean what they are bound to, and the root parameter
means the input. -/
theorem Plan.env_computes (plan : Plan)
    (hs : ∀ b ∈ plan.bindings, ∀ name, b.2 = .service name → ∃ s, services name = some s)
    (nodup : (plan.bindings.map (·.1.id)).Nodup)
    (root : plan.root.id ∉ plan.bindings.map (·.1.id)) (input : Json) :
    ∃ env : Env σ, Computes (plan.env services input) (some env) ∧ env.From services ∧
      (∀ b ∈ plan.bindings, env.scope b.1.id = some b.2.meaning) ∧
      env.scope.value plan.root = some input := by
  have start : Env.From services [(plan.root.id, Slot.value input)] := by
    intro e hmem name s hslot
    cases List.mem_singleton.mp hmem
    cases hslot
  obtain ⟨env, henv, hfrom, hbound, hother⟩ := bindings_compute plan.bindings hs nodup _ start
  refine ⟨env, henv, hfrom, hbound, ?_⟩
  unfold Scope.value
  rw [hother _ root, Env.scope_cons, if_pos rfl]
  rfl

end Environments

/-! ## Passes -/

/-- The value that is wanted of a root field on the data; `some none` where nothing is wanted. -/
def rootValue (config : SchemaConfig) (answers : Answers) (data : Json) :
    Option Wanted → Option (Option Json)
  | none => some none
  | some w => (w.value config answers false data).map some

section Passes

variable {σ : Type} {services : Services σ} {answers : Answers} {config : SchemaConfig} {c : Planner}

/-- A pass binds no parameter that was drawn before it. -/
theorem PlanState.Grows.unbound_start {n i : Nat} {final : PlanState}
    (h : PlanState.Grows { fresh := n } final) (hi : i < n) : i ∉ final.boundIds := by
  rw [h.boundIds hi]
  exact List.not_mem_nil

/-- The run of a pass gives the value of what is wanted of its root field, as its frame reads it, or
fails where there is none. -/
theorem PassOutcome.run_computes (hs : services.AnswerBy answers) (respect : answers.Respect)
    {frame : Frame} {s : Selected} {root : Param} {n n' : Nat} {w : Wanted} {plan : Plan}
    (h : PassOutcome config c frame s root n n' (some w) (some plan)) (hroot : root.id < n)
    (regular : (w.view frame root.ty).Regular) {input : Json}
    (evaluated : (w.view frame root.ty).Evaluated config answers false input) :
    Computes (plan.run services input)
      ((w.view frame root.ty).value config answers false input) := by
  obtain ⟨final, body, -, outcome, hplan⟩ := h.planned
  cases outcome with
  | @some _ body grows good _ plans =>
    cases hplan
    have unbound : root.id ∉ final.boundIds := grows.unbound_start hroot
    obtain ⟨env, henv, hfrom, hbound, hinput⟩ := Plan.env_computes
      ⟨root, body, final.bindings, final.services⟩ (fun _ _ name _ => (hs name).imp fun _ h => h.1)
      good.nodup unbound input
    have value : body.value answers env.scope =
        (w.view frame root.ty).value config answers false input :=
      (plans.renders final (.refl _) good).value_eq respect good (.param root) regular hbound
        ((Expr.value_param ..).trans hinput) (by simp [not_served_param]) evaluated
    have run : Plan.run services ⟨root, body, final.bindings, final.services⟩ input =
        body.eval services env := by
      unfold Plan.run
      rw [henv.eq_pure, pure_bind]
    rw [run, ← value]
    exact Expr.eval_computes hs body hfrom

/-- A pass gives the value of what is wanted of its root field, as its frame reads it. -/
theorem PassOutcome.computes (hs : services.AnswerBy answers) (respect : answers.Respect)
    {frame : Frame} {s : Selected} {root : Param} {n n' : Nat} {w : Wanted} {plan : Plan}
    (h : PassOutcome config c frame s root n n' (some w) (some plan)) (hroot : root.id < n)
    (regular : (w.view frame root.ty).Regular) {input r : Json}
    (hr : (w.view frame root.ty).value config answers false input = some r) :
    Computes (plan.run services input) (some r) :=
  hr ▸ h.run_computes hs respect hroot regular (Wanted.evaluated_of_value hr)

/-- A pass over the data gives the value of what is wanted of its root field, if anything is. -/
theorem PassOutcome.rootValue_computes (standard : c.schema.Standard) (onSchema : c.tree.Over c.schema)
    (hs : services.AnswerBy answers) (respect : answers.Respect) {pass : Pass} {rootType : String}
    {s : Selected} (kept : c.Kept s) {n n' : Nat} {w : Option Wanted} {plan : Option Plan}
    (h : PassOutcome config c ⟨pass, false, true⟩ s ⟨n, "data", .entity rootType false⟩ (n + 1) n' w
      plan) {data : Json} {r : Option Json} (hr : rootValue config answers data w = some r) :
    Computes (PlannedField.run services ⟨s.node.name, plan, none⟩ data) (some r) := by
  obtain ⟨final, body, -, rendered, rfl⟩ := h.planned
  cases rendered with
  | none =>
    cases hr
    exact .pure none
  | @some w body _ _ _ _ =>
    obtain ⟨v, hv, rfl⟩ := Option.map_eq_some_iff.mp hr
    have view : w.view ⟨pass, false, true⟩ (.entity rootType false) = w := Wanted.view_unchanged rfl _ w
    have run := h.computes hs respect (Nat.lt_succ_self n)
      (view.symm ▸ Planner.wanted_regular standard onSchema kept h.wanted) (view.symm ▸ hv)
    exact run.map some

/-- The only pass of a planned root field gives the value that the selection has on the data. -/
theorem Planner.single_pass_correct {request : Request}
    (built : config.build = .ok c.schema) (requested : request.build c.schema = .ok c.tree)
    (single : c.options.separately = false) {op : PlannedOperation} (planned : c.plan = .ok op)
    {field : PlannedField} (hf : field ∈ op.fields) :
    ∃ s w, s.First c.rootSelected op.errors ∧ s.node.name = field.name ∧
      c.wanted config .services (c.options.maxDepth + 1) true s [] [s.node.name] = .ok w ∧
      ∀ {σ : Type} (services : Services σ) (answers : Answers), services.AnswerBy answers →
        answers.Respect → ∀ data r, rootValue config answers data w = some r →
          ∀ state, field.run services data state = (.ok r, state) := by
  obtain ⟨-, standard, -⟩ := SchemaConfig.build_ok built
  have onSchema := Request.build_over (SchemaConfig.indexed built) requested
  obtain ⟨rootType, p, -, rfl, settles⟩ := plan_ok built onSchema planned
  obtain ⟨ss, -, hall⟩ := settles.accepted
  obtain ⟨s, -, accepts⟩ := exists_of_forall₂ hall hf
  obtain ⟨n, n', -, outcome⟩ := accepts.planned
  cases outcome with
  | @single w plan _ pass =>
    refine ⟨s, w, accepts.first, rfl, pass.wanted, ?_⟩
    intro σ services answers hs respect data r hr
    exact pass.rootValue_computes standard onSchema hs respect accepts.kept hr
  | shape separate => rw [single] at separate; cases separate
  | services separate => rw [single] at separate; cases separate
  | both separate => rw [single] at separate; cases separate

end Passes

/-! ## Two zeros

An object that a service gives for `0.0` and, below it, one that it gives for `-0.0`. The arguments
are equal as JSON values, so the plan reads the inner object from the outer one.
-/

namespace Zeros

/-- A field whose value the service gives for an argument. -/
def called (ty : String) (arg : Json) : FieldConfig :=
  .full {
    ty := ty
    path := none
    service := some ⟨"numbers", "describe", [arg]⟩
    constant := none
    arguments := []
    useArgumentsFrom := none
    sort := none
    paging := none
    roles := []
    description := none }

def config : SchemaConfig where
  query := "Query"
  mutation := none
  types := [
    ("Query", ⟨none, [("zero", called "Number" (.double ⟨false, 0⟩))]⟩),
    ("Number", ⟨none, [("name", .short "String"),
      ("negated", called "Number" (.double ⟨true, 0⟩))]⟩)]
  inputs := []
  enums := []

def select (field : String) (selections : List SelectionRequest) : SelectionRequest :=
  ⟨some field, none, none, none, [], [], selections⟩

/-- The name of the negated zero. -/
def request : Request := ⟨.query, [select "zero" [select "negated" [select "name" []]]], []⟩

def schema : Schema := okOf config.build (by decide +kernel)

def planner : Planner where
  schema := schema
  tree := okOf (request.build schema) (by decide +kernel)
  assignment := []
  authorizer := .all
  registered := none
  options := { separately := false }

def op : PlannedOperation := okOf planner.plan (by decide +kernel)

/-- Answers that tell the two zeros apart. -/
def answers : Answers := fun _ _ args =>
  match args with
  | [.double x] => .ok (.obj [("name", .str (if x.neg then "minus zero" else "zero"))])
  | _ => .ok .null

/-- Answers that do not. -/
def sameAnswers : Answers := fun _ _ _ => .ok (.obj [("name", .str "zero")])

def services (answers : Answers) : Services Unit := fun name =>
  some fun method args state => (answers name method args, state)

theorem answerBy (answers : Answers) : (services answers).AnswerBy answers :=
  fun _ => ⟨_, rfl, fun _ _ _ => rfl⟩

def field : PlannedField := op.fields.head (by decide +kernel)

theorem mem_fields : field ∈ op.fields := List.head_mem _

def root : Selected := planner.rootSelected.head (by decide +kernel)

theorem rootSelected_eq : planner.rootSelected = [root] := by
  have one : planner.rootSelected.length = 1 := by decide +kernel
  obtain ⟨s, hs⟩ := List.length_eq_one_iff.mp one
  unfold root
  simp [hs]

def wanted : Option Wanted :=
  okOf (planner.wanted config .services (planner.options.maxDepth + 1) true root [] [root.node.name])
    (by decide +kernel)

/-- The number whose negation has a name. -/
def named (name : String) : Json := .obj [("negated", .obj [("name", .str name)])]

/-- A root field has a value that equals another one. -/
def gives (r : Option (Option Json)) (v : Json) : Bool := r.any (·.any (· == v))

theorem of_gives {r : Option (Option Json)} {v : Json} (h : gives r v = true) :
    ∃ u, r = some (some u) ∧ (u == v) = true := by
  match r with
  | some (some u) => exact ⟨u, rfl, h⟩

/-- What a run of the planned root field gives. -/
def ran (answers : Answers) : Option (Option Json) :=
  (field.run (services answers) .null ()).1.toOption

end Zeros

open Zeros in
theorem single_pass_correct_zeros : ∃ field ∈ op.fields, ∃ v,
    field.run (services sameAnswers) .null () = (.ok (some v), ()) ∧
      (v == named "zero") = true := by
  obtain ⟨s, w, ⟨before, after, hsplit, -⟩, -, hw, run⟩ :=
    Planner.single_pass_correct (eq_okOf config.build (by decide +kernel))
      (eq_okOf (request.build schema) (by decide +kernel)) rfl
      (eq_okOf planner.plan (by decide +kernel)) mem_fields
  obtain rfl : s = root := by
    have hmem : s ∈ planner.rootSelected := by simp [hsplit]
    simpa [rootSelected_eq] using hmem
  have known : planner.wanted config .services (planner.options.maxDepth + 1) true root []
      [root.node.name] = .ok Zeros.wanted := eq_okOf _ _
  obtain rfl : w = Zeros.wanted := Except.ok.inj (hw.symm.trans known)
  obtain ⟨v, hv, same⟩ : ∃ v, rootValue config sameAnswers .null Zeros.wanted = some (some v) ∧
      (v == named "zero") = true := of_gives (by decide +kernel)
  exact ⟨field, mem_fields, v,
    run (services sameAnswers) sameAnswers (answerBy _) (fun _ _ _ _ _ => rfl) .null _ hv (), same⟩

open Zeros in
/-- Where a service tells arguments apart that are equal as JSON values, the plan may give another
value than the selection has. -/
theorem zeros_told_apart :
    config.build = .ok planner.schema ∧ request.build planner.schema = .ok planner.tree ∧
      planner.options.separately = false ∧ planner.plan = .ok op ∧ field ∈ op.fields ∧
      root.First planner.rootSelected op.errors ∧ root.node.name = field.name ∧
      planner.wanted config .services (planner.options.maxDepth + 1) true root [] [root.node.name] =
        .ok Zeros.wanted ∧
      (services answers).AnswerBy answers ∧
      ∃ v u, rootValue config answers .null Zeros.wanted = some (some v) ∧
        (field.run (services answers) .null ()).1 = .ok (some u) ∧
        (v == named "minus zero") = true ∧ (u == named "zero") = true ∧ u ≠ v := by
  obtain ⟨v, hv, minus⟩ : ∃ v, rootValue config answers .null Zeros.wanted = some (some v) ∧
      (v == named "minus zero") = true := of_gives (by decide +kernel)
  obtain ⟨u, hu, zero⟩ : ∃ u, ran answers = some (some u) ∧ (u == named "zero") = true :=
    of_gives (by decide +kernel)
  have differs : gives (ran answers) (named "minus zero") = false := by decide +kernel
  have run : (field.run (services answers) .null ()).1 = .ok (some u) := by
    unfold ran at hu
    generalize (field.run (services answers) .null ()).1 = r at hu
    cases r with
    | ok a => exact congrArg Except.ok (Option.some.inj hu)
    | error e => cases hu
  refine ⟨eq_okOf _ _, eq_okOf _ _, rfl, eq_okOf _ _, mem_fields,
    ⟨[], [], by rw [rootSelected_eq]; rfl, by simp⟩, by decide +kernel, eq_okOf _ _,
    answerBy answers, v, u, hv, run, minus, zero, ?_⟩
  rintro rfl
  rw [hu] at differs
  exact Bool.noConfusion (differs.symm.trans minus)

end FieldPlan
