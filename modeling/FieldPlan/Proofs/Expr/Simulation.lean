import FieldPlan.Proofs.Expr.Alike
import FieldPlan.Proofs.Expr.Calls
import FieldPlan.Proofs.Expr.Rebuilding

/-!
# Evaluation of rebuilt expressions

* `Stacked` : two environments extended by the same values for corresponding binders;
* `Simulates` : two expressions evaluate alike, as values, as sort keys and as receivers;
* `simulates_of_frame` : so do expressions of one frame whose parts do;
* `Expr.Rebuilds.simulates` : a rebuilt expression evaluates like the one it was built from, as long as
  the copies do.
-/

namespace FieldPlan

open Expr

section Simulation

variable {σ : Type} {services : Services σ} {R : σ → σ → Prop} {env env' outer outer' : Env σ}
  {binders : List (Param × Param)} {e d : Expr}

/-! ## Environments -/

/-- The environment where the parameters stand for a value. -/
def Env.under (env : Env σ) (ps : List Param) (v : Json) : Env σ :=
  ps.foldr (fun p env => env.bind p v) env

/-- Two environments extended by the same values for corresponding binders, the innermost first. -/
inductive Stacked (outer outer' : Env σ) : List (Param × Param) → Env σ → Env σ → Prop
  | nil : Stacked outer outer' [] outer outer'
  | bind {binders : List (Param × Param)} {env env' : Env σ} (p p' : Param) (v : Json) :
    Stacked outer outer' binders env env' →
    Stacked outer outer' ((p, p') :: binders) (env.bind p v) (env'.bind p' v)

theorem Stacked.under (h : Stacked outer outer' binders env env') {ps ps' : List Param}
    (length : ps.length = ps'.length) (v : Json) :
    Stacked outer outer' (ps.zip ps' ++ binders) (env.under ps v) (env'.under ps' v) := by
  induction ps generalizing ps' with
  | nil =>
    match ps', length with
    | [], _ => exact h
  | cons p ps ih =>
    match ps', length with
    | p' :: ps', length => exact .bind p p' v (ih (Nat.succ.inj length))

/-- Corresponding parameters stand for the same. -/
theorem Stacked.lookup (h : Stacked outer outer' binders env env') {p p' : Param}
    (hp : Corresponds binders p p')
    (free : p' = p → outer.lookup p.id = outer'.lookup p.id) :
    env.lookup p.id = env'.lookup p'.id := by
  induction h with
  | nil =>
    cases hp
    exact free rfl
  | bind q q' v _ ih =>
    rw [Corresponds] at hp
    rw [Env.lookup_bind, Env.lookup_bind]
    by_cases same : p.id = q.id
    · rw [if_pos same] at hp
      rw [if_pos same.symm, if_pos hp.symm]
    · rw [if_neg same] at hp
      rw [if_neg (Ne.symm same), if_neg (Ne.symm hp.1), ih hp.2]

theorem Stacked.lookup_left (h : Stacked outer outer' binders env env') {i : Nat}
    (apart : ∀ y ∈ binders, y.1.id ≠ i) : env.lookup i = outer.lookup i := by
  induction h with
  | nil => rfl
  | bind q q' v _ ih =>
    obtain ⟨first, rest⟩ := List.forall_mem_cons.mp apart
    rw [Env.lookup_bind, if_neg first, ih rest]

theorem Stacked.lookup_right (h : Stacked outer outer' binders env env') {i : Nat}
    (apart : ∀ y ∈ binders, y.2.id ≠ i) : env'.lookup i = outer'.lookup i := by
  induction h with
  | nil => rfl
  | bind q q' v _ ih =>
    obtain ⟨first, rest⟩ := List.forall_mem_cons.mp apart
    rw [Env.lookup_bind, if_neg first, ih rest]

/-! ## Expressions of one frame -/

/-- Two expressions evaluate alike in two environments, as values under sort keys, as sort keys and as
receivers of calls. -/
structure Simulates (services : Services σ) (R : σ → σ → Prop) (env env' : Env σ) (e d : Expr) :
    Prop where
  under : ∀ keys keys', AlikeKeys R keys keys' →
    Alike R (e.evalUnder services env keys) (d.evalUnder services env' keys')
  key : ∀ item, Alike R (e.evalKey services env item) (d.evalKey services env' item)
  receiver : Alike R (receiver services env e) (receiver services env' d)

theorem Simulates.value (h : Simulates services R env env' e d) :
    Alike R (e.evalUnder services env []) (d.evalUnder services env' []) :=
  h.under [] [] .nil

theorem evalList_alike {es ds : List Expr}
    (h : List.Forall₂ (Simulates services R env env') es ds) :
    Alike R (evalList services es env) (evalList services ds env') := by
  induction h with
  | nil => exact .pure []
  | cons h _ ih =>
    rw [evalList, evalList]
    exact h.value.bind fun v => ih.bind fun vs => .pure (v :: vs)

theorem evalFields_alike {fields fields' : List (String × Expr)}
    (names : fields.map (·.1) = fields'.map (·.1))
    (h : List.Forall₂ (Simulates services R env env') (fields.map (·.2)) (fields'.map (·.2))) :
    Alike R (evalFields services fields env) (evalFields services fields' env') := by
  induction fields generalizing fields' with
  | nil =>
    match fields', names with
    | [], _ => exact .pure []
  | cons field fields ih =>
    match fields', names, h with
    | field' :: fields', names, .cons h rest =>
      obtain ⟨name, names⟩ : field.1 = field'.1 ∧ _ := List.cons.inj names
      rw [evalFields, evalFields, name]
      exact h.value.bind fun v => (ih names rest).bind fun vs => .pure ((_, v) :: vs)

theorem evalHead_alike {es ds : List Expr}
    (h : List.Forall₂ (Simulates services R env env') es ds) :
    Alike R (evalHead services es env) (evalHead services ds env') := by
  cases h with
  | nil => exact .pure Json.null
  | cons h _ => exact h.value

theorem evalBuiltin_alike (f : Builtin) {args args' : List Expr}
    (h : List.Forall₂ (Simulates services R env env') args args') {keys keys' : List (SortKey σ)}
    (hk : AlikeKeys R keys keys') :
    Alike R ((Expr.builtin f args).evalUnder services env keys)
      ((Expr.builtin f args').evalUnder services env' keys') := by
  cases h with
  | nil => cases f <;> exact .fault _ _
  | cons hlist hrest =>
    cases f with
    | thenBy d =>
      cases hrest with
      | nil => exact .fault _ _
      | cons hkey _ => exact hlist.under _ _ (.cons ⟨rfl, hkey.key⟩ hk)
    | orderBy d =>
      cases hrest with
      | nil => exact .fault _ _
      | @cons key key' _ _ hkey _ =>
        have more : AlikeKeys R (⟨d, key.evalKey services env⟩ :: keys)
            (⟨d, key'.evalKey services env'⟩ :: keys') := .cons ⟨rfl, hkey.key⟩ hk
        exact hlist.value.bind fun v => .sortBy more v
    | count =>
      refine .sorted hk (hlist.value.bind fun v => ?_)
      cases v with
      | null | arr _ => exact .pure _
      | _ => exact .fault _ _
    | skip | take =>
      refine .sorted hk (hlist.value.bind fun v => ?_)
      cases v with
      | null => exact .pure _
      | arr items => exact (evalHead_alike hrest).bind fun n => .slice _ items n
      | _ => exact .fault _ _

/-- An expression that is no function is no sort key. -/
theorem fault_key (he : e.lambda? = none) (hd : d.lambda? = none) (item : Json) :
    Alike R (e.evalKey services env item) (d.evalKey services env' item) := by
  cases e <;> cases he <;> cases d <;> cases hd <;> exact .fault _ _

/-- A call in equal states gives equal results and states. -/
theorem call_alike (calls : ∀ s t, R s t ↔ s = t) (name : ServiceName) (service : Service σ)
    (method : String) (args : List Json) :
    Alike R (call name service method args) (call name service method args) := by
  intro s t h
  obtain rfl := (calls s t).mp h
  exact ⟨rfl, (calls _ _).mpr rfl⟩

theorem parts_children {args args' : List Expr} (length : args'.length = args.length)
    (h : ∀ y ∈ (args.map fun c => (([] : List Param), c)).zip (args'.map fun c => ([], c)), ∀ v,
      Simulates services R (env.under y.1.1 v) (env'.under y.2.1 v) y.1.2 y.2.2) :
    List.Forall₂ (Simulates services R env env') args args' := by
  refine List.forall₂_iff_zip.mpr ⟨length.symm, fun {a b} hab => ?_⟩
  refine h (([], a), ([], b)) ?_ .null
  rw [List.zip_map]
  exact List.mem_map.mpr ⟨(a, b), hab, rfl⟩

/-- Expressions of one frame evaluate alike when their parts do. -/
theorem simulates_of_frame (same : d.frame = e.frame)
    (param : ∀ p p', e = .param p → d = .param p' → env.lookup p.id = env'.lookup p'.id)
    (calls : e.isInvoke = true → ∀ s t, R s t ↔ s = t)
    (parts : ∀ y ∈ (e.parts []).zip (d.parts []), ∀ v,
      Simulates services R (env.under y.1.1 v) (env'.under y.2.1 v) y.1.2 y.2.2) :
    Simulates services R env env' e d := by
  cases e with
  | param p =>
    cases d <;> simp only [frame, reduceCtorEq] at same
    have same := param p _ rfl rfl
    refine ⟨fun keys keys' hk => .sorted hk (Env.value_alike same), fun item => .fault _ _, ?_⟩
    refine (Env.slot_alike same).bind fun slot => ?_
    cases slot with
    | value v => exact .fault _ _
    | service name s => exact .pure _
  | constant v t =>
    cases d <;> simp only [frame, reduceCtorEq, Expr.constant.injEq] at same
    obtain ⟨rfl, rfl⟩ := same
    exact ⟨fun keys keys' hk => .sorted hk (.pure _), fun item => .fault _ _, .fault _ _⟩
  | null t =>
    cases d <;> simp only [frame, reduceCtorEq] at same
    exact ⟨fun keys keys' hk => .sorted hk (.pure _), fun item => .fault _ _, .fault _ _⟩
  | service name =>
    cases d <;> simp only [frame, reduceCtorEq, Expr.service.injEq] at same
    obtain rfl := same
    refine ⟨fun keys keys' hk => .sorted hk (.fault _ _), fun item => .fault _ _, ?_⟩
    refine Alike.bind ?_ fun service => .pure _
    unfold Services.get
    split
    · exact .pure _
    · exact .throw _ _
  | member target name t =>
    cases d <;> simp only [frame, reduceCtorEq, Expr.member.injEq] at same
    obtain ⟨-, rfl, -⟩ := same
    have target := List.forall_mem_singleton.mp parts
    refine ⟨fun keys keys' hk => .sorted hk ?_, fun item => .fault _ _, .fault _ _⟩
    exact (target .null).value.bind fun v => .readMember _ v
  | condition test a b =>
    cases d <;> simp only [frame, reduceCtorEq] at same
    obtain ⟨test, parts⟩ := List.forall_mem_cons.mp parts
    obtain ⟨a, parts⟩ := List.forall_mem_cons.mp parts
    have b := List.forall_mem_singleton.mp parts
    refine ⟨fun keys keys' hk => .sorted hk ?_, fun item => .fault _ _, .fault _ _⟩
    refine (test .null).value.bind fun v => ?_
    split
    · exact (a .null).value
    · exact (b .null).value
    · exact .fault _ _
  | equal a b =>
    cases d <;> simp only [frame, reduceCtorEq] at same
    obtain ⟨a, parts⟩ := List.forall_mem_cons.mp parts
    have b := List.forall_mem_singleton.mp parts
    refine ⟨fun keys keys' hk => .sorted hk ?_, fun item => .fault _ _, .fault _ _⟩
    exact (a .null).value.bind fun v => (b .null).value.bind fun w => .pure _
  | builtin f args =>
    cases d <;> simp only [frame, reduceCtorEq, Expr.builtin.injEq] at same
    rename_i args'
    obtain ⟨rfl, same⟩ := same
    have length : args'.length = args.length := by simpa using congrArg List.length same
    have args := parts_children length parts
    exact ⟨fun keys keys' hk => evalBuiltin_alike _ args hk, fun item => .fault _ _, .fault _ _⟩
  | invoke r m args t =>
    cases d <;> simp only [frame, reduceCtorEq, Expr.invoke.injEq] at same
    rename_i args' t'
    obtain ⟨-, rfl, same, -⟩ := same
    have length : args'.length = args.length := by simpa using congrArg List.length same
    obtain ⟨receiver, parts⟩ := List.forall_mem_cons.mp parts
    have args := parts_children length parts
    refine ⟨fun keys keys' hk => .sorted hk ?_, fun item => .fault _ _, .fault _ _⟩
    refine (receiver .null).receiver.bind fun called => (evalList_alike args).bind fun vs => ?_
    exact call_alike (calls rfl) called.1 called.2 _ vs
  | lambda p body =>
    cases d <;> simp only [frame, reduceCtorEq] at same
    have body := List.forall_mem_singleton.mp parts
    exact ⟨fun keys keys' hk => .sorted hk (.fault _ _), fun item => (body item).value, .fault _ _⟩
  | record name fields =>
    cases d <;> simp only [frame, reduceCtorEq, Expr.record.injEq] at same
    rename_i fields'
    obtain ⟨-, names⟩ := same
    have names : fields.map (·.1) = fields'.map (·.1) := by
      have firsts := congrArg (List.map Prod.fst) names
      simpa [Function.comp_def] using firsts.symm
    have length : (fields'.map (·.2)).length = (fields.map (·.2)).length := by
      simpa using (congrArg List.length names).symm
    have fields := parts_children length parts
    refine ⟨fun keys keys' hk => .sorted hk ?_, fun item => .fault _ _, .fault _ _⟩
    exact (evalFields_alike names fields).bind fun vs => .pure _
  | select source p body =>
    cases d <;> simp only [frame, reduceCtorEq] at same
    obtain ⟨source, parts⟩ := List.forall_mem_cons.mp parts
    have body := List.forall_mem_singleton.mp parts
    refine ⟨fun keys keys' hk => .sorted hk ?_, fun item => .fault _ _, .fault _ _⟩
    refine (source .null).value.bind fun v => ?_
    cases v with
    | null => exact .pure _
    | arr items => exact (Alike.mapM (fun item => (body item).value) items).bind fun vs => .pure _
    | _ => exact .fault _ _
  | letIn p value body =>
    cases d <;> simp only [frame, reduceCtorEq] at same
    obtain ⟨value, parts⟩ := List.forall_mem_cons.mp parts
    have body := List.forall_mem_singleton.mp parts
    refine ⟨fun keys keys' hk => .sorted hk ?_, fun item => .fault _ _, .fault _ _⟩
    exact (value .null).value.bind fun v => (body v).value

/-! ## Rebuilt expressions -/

/-- Copies evaluate like what they are put for, and the parameters that are kept stand for the same, in
environments that were extended for binders of these numbers. -/
structure Matching (services : Services σ) (R : σ → σ → Prop) (hit : List Param → Expr → Prop)
    (copy : Expr → Prop) (bound : Nat → Prop) (outer outer' : Env σ) (e d : Expr) : Prop where
  binder : ∀ i ∈ e.binders, bound i
  calls : (∃ x ∈ e.subterms, x.isInvoke = true) → ∀ s t, R s t ↔ s = t
  kept : ∀ around p, ¬hit around (.param p) → p.id ∈ d.ids → outer.lookup p.id = outer'.lookup p.id
  put : ∀ {binders : List (Param × Param)} {env env' : Env σ} {x c : Expr},
    hit (binders.map (·.1)) x → copy c → (∀ y ∈ binders, bound y.1.id) →
    (∀ y ∈ binders, y.2.id ∉ c.ids) → Stacked outer outer' binders env env' →
    Simulates services R env env' x c

variable {hit : List Param → Expr → Prop} {copy : Expr → Prop} {bound : Nat → Prop}

theorem Matching.part (h : Matching services R hit copy bound outer outer' e d)
    {y : (List Param × Expr) × List Param × Expr} (hy : y ∈ (e.parts []).zip (d.parts [])) :
    Matching services R hit copy bound outer outer' y.1.2 y.2.2 := by
  have child := mem_children_of_parts (List.of_mem_zip hy).1
  have child' := mem_children_of_parts (List.of_mem_zip hy).2
  refine ⟨fun i hi => h.binder i (mem_binders_iff.mpr (.inr ⟨_, child, hi⟩)), ?_, ?_, h.put⟩
  · rintro ⟨x, hx, invoke⟩
    exact h.calls ⟨x, mem_subterms_of_child child hx, invoke⟩
  · exact fun around p hp hi => h.kept around p hp (ids_of_child child' hi)

/-- A rebuilt expression evaluates like the one it was built from. -/
theorem Expr.Rebuilds.simulates (h : Rebuilds hit copy binders e d)
    (matching : Matching services R hit copy bound outer outer' e d)
    (around : ∀ y ∈ binders, bound y.1.id) (stacked : Stacked outer outer' binders env env') :
    Simulates services R env env' e d := by
  -- The environments at a part are extended by the binders which correspond there.
  induction h generalizing env env' with
  | put hhit hc apart => exact matching.put hhit hc around apart stacked
  | @keep binders e d none same param binder part ih =>
    refine simulates_of_frame same (fun p p' he hd => ?_) (fun invoke => ?_) fun y hy v => ?_
    · subst he hd
      refine stacked.lookup (param p p' rfl rfl) fun eq => ?_
      exact matching.kept _ p none (eq ▸ List.mem_cons_self)
    · exact matching.calls ⟨e, self_mem_subterms e, invoke⟩
    · refine ih y hy (matching.part hy) (fun z hz => ?_) (stacked.under (length_of_frame same hy) v)
      rcases List.mem_append.mp hz with hz | hz
      · have hq := bound_of_mem_parts (List.of_mem_zip hy).1 (List.of_mem_zip hz).1
        exact matching.binder _ (mem_binders_iff.mpr (.inl ⟨z.1, hq, rfl⟩))
      · exact around z hz

end Simulation

end FieldPlan
