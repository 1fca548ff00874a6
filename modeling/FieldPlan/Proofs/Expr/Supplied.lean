import FieldPlan.Proofs.Expr.Scoped

/-!
# Evaluation in scope

In an environment with values and services for its parameters an expression may fail, but not for
want of one of them.

* `ExecError.Unbound` : the errors of parameters and services that are missing or mixed up;
* `Supplied` : computations that do not fail with such an error;
* `Env.Supplies`, `Expr.Scoped.eval_supplied` : the evaluation of an expression in scope.
-/

namespace FieldPlan

/-- A parameter stands for nothing, a service is not there, or the one is taken for the other. -/
def ExecError.Unbound : ExecError → Prop
  | .unboundParameter _ | .unknownService _ => True
  | .type (.serviceAsValue _) | .type (.notAService _) => True
  | _ => False

section Supplied

variable {σ α β : Type}

/-- Fails, if at all, for another reason than that a parameter or a service is missing. -/
def Supplied (x : Exec σ α) : Prop :=
  ∀ state next e, x state = (.error e, next) → ¬e.Unbound

namespace Supplied

theorem pure (a : α) : Supplied (Pure.pure a : Exec σ α) := nofun

theorem throw {e : ExecError} (h : ¬e.Unbound) : Supplied (MonadExcept.throw e : Exec σ α) := by
  intro state next e' he
  cases he
  exact h

theorem bind {x : Exec σ α} {k : α → Exec σ β} (hx : Supplied x) (hk : ∀ a, Supplied (k a)) :
    Supplied (x >>= k) := by
  intro state next e h
  rw [exec_bind] at h
  split at h
  · rename_i a mid _
    exact hk a mid next e h
  · rename_i e' mid hmid
    cases h
    exact hx state _ _ hmid

theorem mapM {f : α → Exec σ β} (h : ∀ a, Supplied (f a)) (as : List α) : Supplied (as.mapM f) := by
  induction as with
  | nil => exact pure []
  | cons a as ih =>
    rw [List.mapM_cons]
    exact bind (h a) fun b => bind ih fun bs => pure (b :: bs)

theorem readMember (name : String) (v : Json) : Supplied (FieldPlan.readMember (σ := σ) name v) := by
  cases v with
  | null | obj _ => exact pure _
  | _ => exact throw nofun

theorem slice (function : Builtin) (items : List Json) (count : Json) :
    Supplied (FieldPlan.slice (σ := σ) function items count) := by
  unfold FieldPlan.slice
  split
  · exact pure _
  · exact throw nofun

theorem call (name : ServiceName) (service : Service σ) (method : String) (args : List Json) :
    Supplied (FieldPlan.call name service method args) := by
  intro state next e h
  unfold FieldPlan.call at h
  split at h <;> cases h
  exact nofun

theorem sortBy {keys : List (SortKey σ)} (hk : ∀ key ∈ keys, ∀ item, Supplied (key.value item))
    (v : Json) : Supplied (FieldPlan.sortBy keys v) := by
  have values : ∀ item, Supplied (keyValues keys item) := by
    intro item
    unfold keyValues
    induction keys with
    | nil => exact pure []
    | cons key keys ih =>
      obtain ⟨hfirst, hrest⟩ := List.forall_mem_cons.mp hk
      rw [List.mapM_cons]
      exact bind (hfirst item) fun v => bind (ih hrest) fun vs => pure (v :: vs)
  cases v with
  | null => exact pure _
  | arr items =>
    exact bind (mapM (fun item => bind (values item) fun _ => pure _) items) fun _ => pure _
  | _ => exact throw nofun

theorem sorted {keys : List (SortKey σ)} (hk : ∀ key ∈ keys, ∀ item, Supplied (key.value item))
    {source : Exec σ Json} (hs : Supplied source) : Supplied (FieldPlan.sorted keys source) := by
  refine bind hs fun v => ?_
  cases keys with
  | nil => exact pure v
  | cons key keys => exact sortBy hk v

end Supplied

end Supplied

/-! ## Environments -/

section Environments

variable {σ : Type} {S V : Nat → Prop} {services : Services σ} {env : Env σ}

/-- Parameters stand for values, and others for services. -/
structure Env.Supplies (S V : Nat → Prop) (env : Env σ) : Prop where
  value : ∀ i, V i → ∃ v, env.scope i = some (.value v)
  service : ∀ i, S i → ∃ name, env.scope i = some (.service name)

theorem Env.Supplies.bind (h : env.Supplies S V) {p : Param} (hp : ¬S p.id) (v : Json)
    {W : Nat → Prop} (hW : ∀ i, W i → V i ∨ i = p.id) : (env.bind p v).Supplies S W where
  value i hi := by
    rw [Env.scope_bind, Scope.bind]
    split
    · exact ⟨v, rfl⟩
    · rename_i hne
      exact h.value i ((hW i hi).resolve_right hne)
  service i hi := by
    have other : i ≠ p.id := fun h => hp (h ▸ hi)
    rw [Env.scope_bind, Scope.bind, if_neg other]
    exact h.service i hi

theorem Env.Supplies.value_supplied (h : env.Supplies S V) {p : Param} (hp : V p.id) :
    Supplied (env.value p) := by
  obtain ⟨v, hv⟩ := h.value p.id hp
  have computed := Env.value_computes env p
  rw [Scope.value, hv] at computed
  rw [computed.eq_pure]
  exact .pure v

theorem Env.Supplies.receiver_supplied (h : env.Supplies S V) {p : Param} (hp : S p.id) :
    Supplied (receiver services env (.param p)) := by
  obtain ⟨name, hname⟩ := h.service p.id hp
  simp only [receiver, Env.slot_eq, Env.scope, Option.map_eq_some_iff] at hname ⊢
  obtain ⟨⟨i, slot⟩, hfound, hslot⟩ := hname
  rw [hfound]
  cases slot with
  | value v => cases hslot
  | service name s => exact .pure (name, s)

end Environments

/-! ## Evaluation -/

section Evaluation

variable {σ : Type} {services : Services σ} {S : Nat → Prop}

/-- The parts of an expression that binds nothing. -/
theorem Expr.Scoped.child {V : Nat → Prop} {e c : Expr} (h : Scoped S V e) (hb : e.bound? = none)
    (hn : e.isInvoke = false) (hc : c ∈ e.children) : Scoped S V c := by
  cases h with
  | value => cases hc
  | call => cases hn
  | parts _ _ hparts =>
    obtain ⟨x, hx, rfl⟩ := exists_part_of_child hc
    refine (hparts x hx).mono fun i hi => hi.resolve_right ?_
    rintro ⟨q, hq, -⟩
    cases e <;> simp_all [bound?, Expr.parts, children] <;> grind

theorem Expr.Scoped.source {V : Nat → Prop} {e s b : Expr} {x : Param} (h : Scoped S V e)
    (he : e = .select s x b ∨ e = .letIn x s b) :
    Scoped S V s ∧ ¬S x.id ∧ Scoped S (fun i => V i ∨ i = x.id) b := by
  cases h with
  | value | call => simp at he
  | parts _ hb hparts =>
    have first : ([], s) ∈ e.parts [] ∧ ([x], b) ∈ e.parts [] := by
      rcases he with rfl | rfl <;> simp [Expr.parts]
    refine ⟨(hparts _ first.1).mono fun i hi => hi.resolve_right (by simp),
      hb _ first.2 x (by simp), (hparts _ first.2).mono fun i hi => hi.imp_right ?_⟩
    rintro ⟨q, hq, rfl⟩
    cases List.mem_singleton.mp hq
    rfl

theorem Expr.Scoped.key {V : Nat → Prop} {b : Expr} {x : Param} (h : Scoped S V (.lambda x b)) :
    ¬S x.id ∧ Scoped S (fun i => V i ∨ i = x.id) b := by
  cases h with
  | parts _ hb hparts =>
    have first : ([x], b) ∈ (Expr.lambda x b).parts [] := by simp [Expr.parts]
    refine ⟨hb _ first x (by simp), (hparts _ first).mono fun i hi => hi.imp_right ?_⟩
    rintro ⟨q, hq, rfl⟩
    cases List.mem_singleton.mp hq
    rfl

mutual

theorem Expr.evalUnder_supplied (e : Expr) {V : Nat → Prop} (h : Scoped S V e) {env : Env σ}
    (he : env.Supplies S V) {keys : List (SortKey σ)}
    (hk : ∀ key ∈ keys, ∀ item, Supplied (key.value item)) :
    Supplied (e.evalUnder services env keys) := by
  match e with
  | .param p =>
    cases h with
    | value hp => exact .sorted hk (he.value_supplied hp)
    | parts hn => cases hn
  | .constant _ _ | .null _ => exact .sorted hk (.pure _)
  | .service _ =>
    cases h with
    | parts hn => cases hn
  | .lambda _ _ => exact .sorted hk (.throw nofun)
  | .member target name _ =>
    have target' := h.child rfl rfl (List.mem_singleton.mpr rfl)
    exact .sorted hk (.bind (target.evalUnder_supplied target' he nofun) fun v => .readMember name v)
  | .condition test a b =>
    have part : ∀ c ∈ [test, a, b], Scoped S V c := fun c hc => h.child rfl rfl hc
    refine .sorted hk (.bind (test.evalUnder_supplied (part _ (by simp)) he nofun) fun v => ?_)
    rcases v with _ | (_ | _) | _ | _ | _ | _ | _
    case bool.true => exact a.evalUnder_supplied (part _ (by simp)) he nofun
    case bool.false => exact b.evalUnder_supplied (part _ (by simp)) he nofun
    all_goals exact .throw nofun
  | .equal a b =>
    have part : ∀ c ∈ [a, b], Scoped S V c := fun c hc => h.child rfl rfl hc
    exact .sorted hk (.bind (a.evalUnder_supplied (part _ (by simp)) he nofun) fun v =>
      .bind (b.evalUnder_supplied (part _ (by simp)) he nofun) fun w => .pure _)
  | .builtin f args =>
    exact Expr.evalBuiltin_supplied f args (fun c hc => h.child rfl rfl hc) he hk
  | .invoke r method args _ =>
    cases h with
    | @call _ p _ _ _ hp hargs =>
      exact .sorted hk (.bind (he.receiver_supplied hp) fun found =>
        .bind (Expr.evalList_supplied args hargs he) fun vs => .call _ _ _ _)
    | parts hn => cases hn
  | .record _ fields =>
    have each : ∀ field ∈ fields, Scoped S V field.2 := fun field hf =>
      h.child rfl rfl (List.mem_map_of_mem hf)
    exact .sorted hk (.bind (Expr.evalFields_supplied fields each he) fun _ => .pure _)
  | .select source p body =>
    obtain ⟨hs, hp, hb⟩ := h.source (.inl rfl)
    refine .sorted hk (.bind (source.evalUnder_supplied hs he nofun) fun v => ?_)
    cases v with
    | null => exact .pure _
    | arr items =>
      have each : ∀ item, Supplied (body.evalUnder services (env.bind p item) []) := fun item =>
        body.evalUnder_supplied hb (he.bind hp item fun _ => id) nofun
      exact .bind (.mapM each items) fun _ => .pure _
    | _ => exact .throw nofun
  | .letIn p value body =>
    obtain ⟨hv, hp, hb⟩ := h.source (.inr rfl)
    exact .sorted hk (.bind (value.evalUnder_supplied hv he nofun) fun v =>
      body.evalUnder_supplied hb (he.bind hp v fun _ => id) nofun)

theorem Expr.evalBuiltin_supplied (f : Builtin) (args : List Expr) {V : Nat → Prop}
    (h : ∀ a ∈ args, Scoped S V a) {env : Env σ} (he : env.Supplies S V) {keys : List (SortKey σ)}
    (hk : ∀ key ∈ keys, ∀ item, Supplied (key.value item)) :
    Supplied ((Expr.builtin f args).evalUnder services env keys) := by
  match f, args with
  | .thenBy d, list :: key :: _ =>
    refine list.evalUnder_supplied (h _ (by simp)) he ?_
    exact List.forall_mem_cons.mpr ⟨key.evalKey_supplied (h _ (by simp)) he, hk⟩
  | .orderBy d, list :: key :: _ =>
    refine .bind (list.evalUnder_supplied (h _ (by simp)) he nofun) fun v => .sortBy ?_ v
    exact List.forall_mem_cons.mpr ⟨key.evalKey_supplied (h _ (by simp)) he, hk⟩
  | .thenBy _, [] | .thenBy _, [_] | .orderBy _, [] | .orderBy _, [_] => exact .throw nofun
  | .count, [] | .skip, [] | .take, [] => exact .throw nofun
  | .count, list :: _ =>
    refine .sorted hk (.bind (list.evalUnder_supplied (h _ (by simp)) he nofun) fun v => ?_)
    cases v with
    | null | arr _ => exact .pure _
    | _ => exact .throw nofun
  | .skip, list :: rest | .take, list :: rest =>
    refine .sorted hk (.bind (list.evalUnder_supplied (h _ (by simp)) he nofun) fun v => ?_)
    cases v with
    | null => exact .pure _
    | arr items =>
      exact .bind (Expr.evalHead_supplied rest (fun a ha => h a (List.mem_cons_of_mem _ ha)) he)
        fun n => .slice _ items n
    | _ => exact .throw nofun

theorem Expr.evalKey_supplied (key : Expr) {V : Nat → Prop} (h : Scoped S V key) {env : Env σ}
    (he : env.Supplies S V) (item : Json) : Supplied (key.evalKey services env item) := by
  match key with
  | .lambda p body =>
    obtain ⟨hp, hb⟩ := h.key
    exact body.evalUnder_supplied hb (he.bind hp item fun _ => id) nofun
  | .param _ | .constant _ _ | .null _ | .service _ | .member _ _ _ | .condition _ _ _
  | .equal _ _ | .builtin _ _ | .invoke _ _ _ _ | .record _ _ | .select _ _ _ | .letIn _ _ _ =>
    exact .throw nofun

theorem Expr.evalHead_supplied (es : List Expr) {V : Nat → Prop} (h : ∀ e ∈ es, Scoped S V e)
    {env : Env σ} (he : env.Supplies S V) : Supplied (Expr.evalHead services es env) := by
  match es with
  | [] => exact .pure _
  | e :: _ => exact e.evalUnder_supplied (h e List.mem_cons_self) he nofun

theorem Expr.evalList_supplied (es : List Expr) {V : Nat → Prop} (h : ∀ e ∈ es, Scoped S V e)
    {env : Env σ} (he : env.Supplies S V) : Supplied (Expr.evalList services es env) := by
  match es with
  | [] => exact .pure _
  | e :: es =>
    obtain ⟨hfirst, hrest⟩ := List.forall_mem_cons.mp h
    exact .bind (e.evalUnder_supplied hfirst he nofun) fun v =>
      .bind (Expr.evalList_supplied es hrest he) fun vs => .pure _

theorem Expr.evalFields_supplied (fields : List (String × Expr)) {V : Nat → Prop}
    (h : ∀ field ∈ fields, Scoped S V field.2) {env : Env σ} (he : env.Supplies S V) :
    Supplied (Expr.evalFields services fields env) := by
  match fields with
  | [] => exact .pure _
  | (_, e) :: fields =>
    obtain ⟨hfirst, hrest⟩ := List.forall_mem_cons.mp h
    exact .bind (e.evalUnder_supplied hfirst he nofun) fun v =>
      .bind (Expr.evalFields_supplied fields hrest he) fun vs => .pure _

end

/-- The evaluation of an expression in scope is supplied. -/
theorem Expr.Scoped.eval_supplied {e : Expr} {V : Nat → Prop} (h : Scoped S V e) {env : Env σ}
    (he : env.Supplies S V) : Supplied (e.eval services env) :=
  e.evalUnder_supplied h he fun _ hkey => absurd hkey List.not_mem_nil

end Evaluation

end FieldPlan
