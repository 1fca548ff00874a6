import FieldPlan.Proofs.Expr.Rewriting
import FieldPlan.Proofs.Expr.Simulation

/-!
# Substitution of parameters

* `Expr.Variant` : an expression up to the parameters that it binds; `Expr.Variant.eval_eq` : it has the
  same value, whatever the state of the services, when nothing is called;
* `Rule.rewrites_param` : a replacement of a parameter puts variants of the replacement;
* `Expr.replaceParam_substitutes` : the result evaluates like the expression with the parameter bound to
  the value of the replacement.
-/

namespace FieldPlan

namespace Expr

/-! ## Variants -/

/-- What an expression is up to the parameters that it binds. -/
def Variant (r c : Expr) : Prop := Rebuilds (fun _ _ => False) (fun _ => False) [] r c

variable {r c e : Expr} {p : Param}

theorem variant_self (h : r.Unshadowed []) : r.Variant r := by
  show Rebuilds _ _ (paired []) r r
  exact rebuilds_self h fun _ _ _ => id

theorem Variant.frame_eq (h : r.Variant c) : c.frame = r.frame := (h.kept id).1

theorem copies_none : Copies fun _ => False := ⟨fun h => h.elim, fun h => h.elim⟩

/-- Exchanging a binder for a fresh parameter leaves a variant one. -/
theorem copies_variant (r : Expr) : Copies (Variant r) where
  renamed := by
    intro c c' x x' around flag n k hc absent fresh hx run
    exact run.rebuilds_renamed rfl copies_none hc ⟨.inr absent, fresh, nofun⟩ hx
  key := by
    intro c c' q q' flag n k hc fresh hq run
    obtain ⟨same, -, -, part⟩ := hc.kept id
    obtain ⟨q₀, body, rfl⟩ : ∃ q₀ body, r = .lambda q₀ body := by
      cases r <;> simp [Expr.frame] at same
      exact ⟨_, _, rfl⟩
    have body := run.rebuilds_renamed rfl copies_none (part (([q₀], body), ([q], c)) List.mem_cons_self)
      (exchanges_own q'.name q'.ty (fun i hi => fresh i (ids_of_child List.mem_cons_self hi))
        (fresh _ (ids_of_bound rfl)) nofun) hq
    rw [List.append_nil, List.zip_cons_cons, List.zip_nil_left, rebinders_own (List.forall_mem_nil _)] at body
    exact .keep id rfl nofun nofun (List.forall_mem_singleton.mpr body)

/-! ## Values of variants -/

section Values

variable {σ : Type} {services : Services σ} {env env' : Env σ}

/-- Where nothing is called, a variant evaluates like the expression in environments that agree on what
it mentions, whatever the states. -/
theorem Variant.simulates (h : r.Variant c) (silent : ∀ x ∈ r.subterms, x.isInvoke = false)
    (agree : ∀ i ∈ c.ids, env.lookup i = env'.lookup i) (R : σ → σ → Prop) :
    Simulates services R env env' r c := by
  have matching : Matching services R (fun _ _ => False) (fun _ => False) (fun _ => True) env env' r c := by
    refine ⟨fun _ _ => trivial, fun ⟨x, hx, called⟩ => ?_, fun _ q _ hq => agree q.id hq, fun h => h.elim⟩
    rw [silent x hx] at called
    cases called
  exact Rebuilds.simulates h matching nofun .nil

/-- A variant of what has a value and calls nothing has that value in every state. -/
theorem Variant.eval_eq (h : r.Variant c) (silent : ∀ x ∈ r.subterms, x.isInvoke = false)
    (agree : ∀ i ∈ c.ids, env.lookup i = env'.lookup i) {v : Json} {s s' : σ}
    (hr : r.eval services env s = (.ok v, s')) (state : σ) :
    c.eval services env' state = (.ok v, state) := by
  -- Without calls the states are not compared: any state may stand on the right.
  have simulates : Simulates services (fun _ t => t = state) env env' r c := h.simulates silent agree _
  have alike := simulates.value s state rfl
  have value : (r.evalUnder services env [] s).1.toOption = some v := congrArg (·.1.toOption) hr
  rw [value] at alike
  obtain ⟨same, next⟩ := alike
  show c.evalUnder services env' [] state = _
  rcases hc : c.evalUnder services env' [] state with ⟨_ | w, t⟩ <;> rw [hc] at same next <;> cases same
  exact congrArg _ next

/-! ## Parameters that are bound to a value -/

/-- What is no sort call is sorted after it was evaluated. -/
theorem evalUnder_sorted (h : ∀ f args, e = .builtin f args → f.sorts = false) (keys : List (SortKey σ)) :
    e.evalUnder services env keys = sorted keys (e.eval services env) := by
  unfold Expr.eval
  cases e with
  | builtin f args =>
    have plain := h f args rfl
    cases f <;> cases plain <;> cases args <;> simp only [evalUnder, sorted_nil] <;> rfl
  | _ => simp only [evalUnder, sorted_nil]

variable {v : Json} {s s' : σ}

/-- What has a value is no sort key. -/
theorem lambda?_of_eval (h : c.eval services env s = (.ok v, s')) : c.lambda? = none := by
  cases c with
  | lambda q body =>
    rw [Expr.eval, evalUnder, sorted_nil] at h
    cases h
  | _ => rfl

/-- What has a value receives no call. -/
theorem receiver_of_eval (h : c.eval services env s = (.ok v, s')) :
    ∃ fault, receiver services env c s = (.error fault, s) := by
  cases c with
  | param q =>
    rw [Expr.eval, evalUnder, sorted_nil, Env.value, Env.slot_lookup] at h
    rw [receiver, Env.slot_lookup]
    rcases hq : env.lookup q.id with _ | w | ⟨name, service⟩
    · exact ⟨_, rfl⟩
    · exact ⟨_, rfl⟩
    · rw [hq] at h
      cases h
  | service name =>
    rw [Expr.eval, evalUnder, sorted_nil] at h
    cases h
  | _ => exact ⟨_, rfl⟩

theorem eval_param (hp : env.lookup p.id = some (.value v)) (s : σ) :
    (Expr.param p).eval services env s = (.ok v, s) := by
  rw [Expr.eval, evalUnder, sorted_nil, Env.value, Env.slot_lookup, hp]
  rfl

/-- A parameter that is bound to a value evaluates like what has that value and is no sort call. -/
theorem simulates_param (hp : env.lookup p.id = some (.value v))
    (hc : ∀ state, c.eval services env' state = (.ok v, state))
    (unsorted : ∀ f args, c = .builtin f args → f.sorts = false) (R : σ → σ → Prop) :
    Simulates services R env env' (.param p) c where
  under keys keys' hk := by
    rw [evalUnder_sorted (e := .param p) nofun, evalUnder_sorted unsorted]
    refine .sorted hk fun s t h => ?_
    rw [eval_param hp, hc]
    exact ⟨rfl, h⟩
  key item s t h := fault_key rfl (lambda?_of_eval (hc t)) item s t h
  receiver s t h := by
    have value : (Expr.param p).eval services env s = _ := eval_param hp s
    obtain ⟨fault, left⟩ := receiver_of_eval value
    obtain ⟨fault', right⟩ := receiver_of_eval (hc t)
    rw [left, right]
    exact ⟨rfl, h⟩

end Values

/-! ## Replacement of a parameter -/

/-- An occurrence of the parameter. -/
def Occurrence (p : Param) (_ : List Param) (x : Expr) : Prop := ∃ q, x = .param q ∧ q.id = p.id

end Expr

open Expr

section Substitution

variable {r e : Expr} {p : Param} {n : Nat}

/-- The replacement of a parameter puts variants of the replacement at its occurrences. -/
theorem Rule.rewrites_param (p : Param) (h : r.Unshadowed []) :
    (Rule.identity [(.param p, r)]).Rewrites (Occurrence p) (Variant r) where
  pre bound x d hd := by
    obtain ⟨q, rfl, same, rfl⟩ := pre_param.mp hd
    exact ⟨⟨q, rfl, same⟩, variant_self h⟩
  kept bound x hpre _ := by
    rintro ⟨q, rfl, same⟩
    rw [pre_param.mpr ⟨q, rfl, same, rfl⟩] at hpre
    cases hpre
  post := nofun

theorem Rule.answers_param {d : Expr} (h : (Rule.identity [(.param p, r)]).Answers e d) : d = r := by
  obtain ⟨x, -, bound, hd | hd⟩ := h
  · obtain ⟨-, -, -, same⟩ := pre_param.mp hd
    exact same
  · cases hd

namespace Expr

/-- A parameter that was replaced is mentioned by the replacement if at all. -/
theorem mentions_of_runs {d : Expr} {flag : Bool} {k : Nat}
    (run : Runs (.identity [(.param p, r)]) [] e n d flag k) (fresh : p.id < n)
    (h : d.mentions p = true) : r.mentions p = true := by
  have feeds : (Rule.identity [(.param p, r)]).Feeds
      (fun q => q.id = p.id → r.mentions p = true) (fun _ => True) e := by
    refine ⟨fun q bound _ hpre same => ?_, fun _ _ _ _ => trivial, fun d hd x hx => ?_⟩
    · rw [Rule.pre_param.mpr ⟨q, rfl, same, rfl⟩] at hpre
      cases hpre
    · cases Rule.answers_param hd
      refine ⟨fun q hq same => mentions_iff.mpr ⟨q, hq ▸ hx, same⟩, fun _ _ => trivial⟩
  have uses := run.uses feeds fun q hq _ =>
    ⟨fun same => absurd fresh (Nat.not_lt.mpr (same ▸ hq)), trivial⟩
  obtain ⟨q, hq, same⟩ := mentions_iff.mp h
  exact (uses _ hq).1 q rfl same

/-- Environments that differ in the value of a parameter suit its replacement by what has that value. -/
theorem matching_param {σ : Type} {services : Services σ} {env : Env σ} {v : Json} {s s' : σ}
    (hr : r.eval services env s = (.ok v, s')) (silent : ∀ x ∈ r.subterms, x.isInvoke = false)
    (unsorted : ∀ f args, r = .builtin f args → f.sorts = false) (absent : p.id ∉ e.binders)
    (d : Expr) :
    Matching services Eq (Occurrence p) (Variant r) (· ∈ e.binders) (env.bind p v) env e d where
  binder _ hi := hi
  calls _ _ _ := Iff.rfl
  kept around q hq _ := by
    have other : p.id ≠ q.id := fun same => hq ⟨q, rfl, same.symm⟩
    rw [Env.lookup_bind, if_neg other]
  put := by
    rintro binders env₁ env₂ _ c ⟨q, rfl, same⟩ hc bound apart stacked
    -- No binder around is the parameter, nor one of those that the copy mentions.
    have value : env₁.lookup q.id = some (.value v) := by
      rw [stacked.lookup_left fun y hy h => absent (h.trans same ▸ bound y hy), Env.lookup_bind,
        if_pos same.symm]
    have agree : ∀ i ∈ c.ids, env.lookup i = env₂.lookup i := fun i hi =>
      (stacked.lookup_right fun y hy h => apart y hy (h ▸ hi)).symm
    refine simulates_param value (hc.eval_eq silent agree hr) (fun f args h => ?_) Eq
    have same := hc.frame_eq
    subst h
    cases r <;> simp only [frame, reduceCtorEq, Expr.builtin.injEq] at same
    exact same.1 ▸ unsorted _ _ rfl

/-- The replacement of a parameter by what calls nothing and has a value gives what evaluates like the
expression with the parameter bound to that value: to the same value if any, and to the same state of the
services, which for services that record their calls is what was called. -/
theorem replaceParam_substitutes (distinct : e.binders.Nodup) (absent : p.id ∉ e.binders)
    (silent : ∀ x ∈ r.subterms, x.isInvoke = false)
    (unsorted : ∀ f args, r = .builtin f args → f.sorts = false) (unshadowed : r.Unshadowed [])
    (apart : ∀ i ∈ r.ids, i ∉ e.binders) (drawn : ∀ i ∈ e.ids, i < n) (drawn' : ∀ i ∈ r.ids, i < n)
    (fresh : p.id < n) :
    (∀ {σ : Type} (services : Services σ) (env : Env σ) (v : Json) (s s' : σ),
      r.eval services env s = (.ok v, s') → ∀ state,
        ((e.replaceParam p r n).1.eval services env state).1.toOption =
            (e.eval services (env.bind p v) state).1.toOption ∧
          ((e.replaceParam p r n).1.eval services env state).2 =
            (e.eval services (env.bind p v) state).2) ∧
      ((e.replaceParam p r n).1.mentions p = true → r.mentions p = true) := by
  obtain ⟨flag, k, run⟩ := replaceAll_runs (List.cons_ne_nil (Expr.param p, r) []) e n
  have separate : (Rule.identity [(.param p, r)]).Separate n [] e :=
    ⟨unshadowed_of_nodup distinct (List.forall_mem_nil _), drawn, List.forall_mem_nil _, fun d hd i hi => by
      cases Rule.answers_param hd
      exact ⟨drawn' i hi, apart i hi, List.forall_mem_nil _⟩⟩
  have rebuilt := run.rebuilds (Rule.rewrites_param p unshadowed) (copies_variant r) separate
  refine ⟨fun services env v s s' hr state => ?_, mentions_of_runs run fresh⟩
  have matching := matching_param hr silent unsorted absent (e.replaceParam p r n).1
  have alike := (rebuilt.simulates matching (List.forall_mem_nil _) .nil).value
  obtain ⟨same, next⟩ := alike state state rfl
  exact ⟨same.symm, next.symm⟩

/-- A replacement that binds a parameter itself, in an expression that calls a service with it. -/
theorem replaceParam_substitutes_call :
    let p : Param := ⟨0, "p", .json⟩
    let x : Param := ⟨1, "x", .json⟩
    let q : Param := ⟨2, "q", .bool⟩
    let e : Expr := .letIn x (.param p) (.invoke (.service "clock") "at" [.param x, .param p] .json)
    let r : Expr := .letIn q (.constant (.bool true) .bool) (.param q)
    let services : Services (List (String × List Json)) :=
      fun _ => some fun method args calls => (.ok .null, calls ++ [(method, args)])
    (e.binders.Nodup ∧ p.id ∉ e.binders ∧ (∀ x ∈ r.subterms, x.isInvoke = false) ∧
      (∀ f args, r = .builtin f args → f.sorts = false) ∧ r.Unshadowed [] ∧
      (∀ i ∈ r.ids, i ∉ e.binders) ∧ (∀ i ∈ e.ids, i < 3) ∧ (∀ i ∈ r.ids, i < 3) ∧ p.id < 3 ∧
      r.eval services [] [] = (.ok (.bool true), [])) ∧
    ((e.replaceParam p r 3).1.eval services [] []).2 = [("at", [.bool true, .bool true])] := by
  intro p x q e r services
  have distinct : e.binders.Nodup := by decide
  have absent : p.id ∉ e.binders := by decide
  have silent : ∀ x ∈ r.subterms, x.isInvoke = false := by decide
  have unsorted : ∀ f args, r = .builtin f args → f.sorts = false := nofun
  have unshadowed : r.Unshadowed [] := unshadowed_of_nodup (by decide) nofun
  have apart : ∀ i ∈ r.ids, i ∉ e.binders := by decide
  have drawn : ∀ i ∈ e.ids, i < 3 := by decide
  have drawn' : ∀ i ∈ r.ids, i < 3 := by decide
  have fresh : p.id < 3 := by decide
  have value : r.eval services [] [] = (.ok (.bool true), []) := rfl
  have substituted := replaceParam_substitutes distinct absent silent unsorted unshadowed apart drawn
    drawn' fresh
  exact ⟨⟨distinct, absent, silent, unsorted, unshadowed, apart, drawn, drawn', fresh, value⟩,
    (substituted.1 services [] _ _ _ value []).2⟩

/-- A replacement that binds a parameter again in its own scope takes part in the change of a binder of
another type, and its outer binder captures the inner one's parameter. -/
theorem replaceParam_captures :
    let int : Ty := .scalar .int true
    let text : Ty := .scalar .string true
    let p : Param := ⟨0, "p", .json⟩
    let x : Param := ⟨1, "x", int⟩
    let q : Param := ⟨2, "q", text⟩
    let e : Expr := .letIn x (.param p) (.param p)
    let r : Expr := .letIn q (.constant (.int 1) int)
      (.letIn q (.constant (.str "a") text) (.param q))
    let services : Services Unit := fun _ => none
    (e.binders.Nodup ∧ (∀ f, e.Free f → f.id ∉ e.binders) ∧ p.id ∉ e.binders ∧
      (∀ x ∈ r.subterms, x.isInvoke = false) ∧ (∀ f args, r = .builtin f args → f.sorts = false) ∧
      (∀ i ∈ r.ids, i ∉ e.binders) ∧ r.eval services [] () = (.ok (.str "a"), ())) ∧
    e.eval services (Env.bind [] p (.str "a")) () = (.ok (.str "a"), ()) ∧
    (e.replaceParam p r 3).1.eval services [] () = (.ok (.int 1), ()) := by
  intro int text p x q e r services
  have free : ∀ f, e.Free f → f.id ∉ e.binders := by
    intro f hf
    rcases free_iff.mp hf with same | ⟨y, hy, -, hf⟩
    · exact nomatch same
    · have same : y.2 = .param p := by
        simp [e, parts] at hy
        rcases hy with rfl | rfl <;> rfl
      cases loose_param (same ▸ hf)
      decide
  exact ⟨⟨by decide, free, by decide, by decide, nofun, by decide, rfl⟩, rfl, rfl⟩

end Expr

end Substitution

end FieldPlan
