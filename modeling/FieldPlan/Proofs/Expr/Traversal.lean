import FieldPlan.Proofs.Expr.Swap
import Mathlib.Data.List.Basic

/-!
# What a traversal does

A traversal visits the parts of an expression one after the other, puts them back together and gives a
binder whose value changed its type a fresh parameter, which is a traversal of the finished body in
turn. The number of levels that the traversal counts down plays no part in that.

* `Expr.outline` : an expression without its types and parameters;
* `Expr.withParts` : an expression with other direct parts;
* `Runs`, `Visits`, `Settles` : what a traversal makes of an expression, of parts and of a binder;
* `Expr.replaceBy_runs` : a traversal runs in this way;
* `Runs.outline_eq` : a renaming changes types and parameters only.
-/

namespace FieldPlan

namespace Expr

/-! ## Outlines -/

mutual

/-- An expression without its types and parameters. -/
def outline : Expr → Expr
  | .param _ => .param default
  | .member target name _ => .member (outline target) name .json
  | .condition test a b => .condition (outline test) (outline a) (outline b)
  | .equal a b => .equal (outline a) (outline b)
  | .builtin f args => .builtin f (outlineList args)
  | .invoke receiver method args t => .invoke (outline receiver) method (outlineList args) t
  | .lambda _ body => .lambda default (outline body)
  | .record name fields => .record name (outlineFields fields)
  | .select source _ body => .select (outline source) default (outline body)
  | .letIn _ value body => .letIn default (outline value) (outline body)
  | e => e

def outlineList : List Expr → List Expr
  | [] => []
  | e :: es => outline e :: outlineList es

/-- Named expressions without their types and parameters. -/
def outlineFields : List (String × Expr) → List (String × Expr)
  | [] => []
  | (name, e) :: fields => (name, outline e) :: outlineFields fields

end

theorem outlineList_eq (es : List Expr) : outlineList es = es.map outline := by
  induction es with
  | nil => rfl
  | cons e es ih => rw [outlineList, ih, List.map_cons]

theorem outlineFields_eq (fields : List (String × Expr)) :
    outlineFields fields = (fields.map (·.1)).zip ((fields.map (·.2)).map outline) := by
  induction fields with
  | nil => rfl
  | cons field fields ih => simp [outlineFields, ih]

theorem children_outline (e : Expr) : e.outline.children = e.children.map outline := by
  cases e <;> simp [outline, children, outlineList_eq, outlineFields_eq, List.map_snd_zip]

theorem subterms_outline (e : Expr) : e.outline.subterms = e.subterms.map outline := by
  induction e using partwise with
  | h e ih =>
    rw [subterms_eq, subterms_eq e, children_outline, List.map_cons, List.map_flatMap,
      List.flatMap_map]
    exact congrArg _ (List.flatMap_congr ih)

@[simp] theorem size_outline (e : Expr) : e.outline.size = e.size := by
  rw [size, subterms_outline, List.length_map, size]

theorem size_eq_of_outline {e d : Expr} (h : d.outline = e.outline) : d.size = e.size := by
  rw [← size_outline d, h, size_outline]

theorem size_pos (e : Expr) : 0 < e.size := by
  rw [size, subterms_eq, List.length_cons]
  exact Nat.succ_pos _

theorem size_lt_of_child {e c : Expr} (h : c ∈ e.children) : c.size < e.size := by
  obtain ⟨before, after, hc⟩ := List.append_of_mem h
  unfold size
  rw [subterms_eq e, hc]
  simp only [List.flatMap_append, List.flatMap_cons, List.length_cons, List.length_append]
  omega

theorem size_le_of_subterm {e x : Expr} (h : x ∈ e.subterms) : x.size ≤ e.size := by
  induction e using partwise with
  | h e ih =>
    rcases mem_subterms.mp h with rfl | ⟨c, hc, hx⟩
    · exact Nat.le_refl _
    · exact Nat.le_trans (ih c hc hx) (Nat.le_of_lt (size_lt_of_child hc))

/-! ## Parts -/

/-- The expression with other direct parts; an access to a member of a record takes the member's
type. -/
def withParts : Expr → List Expr → Expr
  | .member _ name t, [target] => .member target name ((target.ty.member? name).getD t)
  | .condition _ _ _, [test, a, b] => .condition test a b
  | .equal _ _, [a, b] => .equal a b
  | .builtin f _, args => .builtin f args
  | .invoke _ method _ t, receiver :: args => .invoke receiver method args t
  | .lambda p _, [body] => .lambda p body
  | .record name fields, es => .record name ((fields.map (·.1)).zip es)
  | .select _ p _, [source, body] => .select source p body
  | .letIn p _ _, [value, body] => .letIn p value body
  | e, _ => e

theorem children_withParts {e : Expr} {es : List Expr} (h : es.length = e.children.length) :
    (e.withParts es).children = es := by
  cases e with
  | record name fields =>
    have hl : (fields.map (·.1)).length = es.length := by simpa [children] using h.symm
    simp [withParts, children, List.map_snd_zip (Nat.le_of_eq hl.symm)]
  | builtin => rfl
  | invoke r m args t =>
    match es, h with
    | r' :: args', _ => rfl
  | _ =>
    rcases es with _ | ⟨_, _ | ⟨_, _ | ⟨_, _ | _⟩⟩⟩ <;> simp_all [withParts, children]

theorem map_snd_parts (e : Expr) (bound : List Param) :
    (e.parts bound).map (·.2) = e.children := by
  cases e <;> simp [parts, children, Function.comp_def]

/-! ## One traversal -/

section Traversal

variable {rename : Param → Param → Expr → Fresh Expr} {rule : Rule}

def visit (rename : Param → Param → Expr → Fresh Expr) (rule : Rule) :
    List (List Param × Expr) → Fresh (List Expr × Bool)
  | [] => pure ([], false)
  | x :: xs => do
    let (e, hit₁) ← replaceWith rename rule x.1 x.2
    let (es, hit₂) ← visit rename rule xs
    pure (e :: es, hit₁ || hit₂)

/-- Gives the binder of a finished expression the type of its value. -/
def settle (rename : Param → Param → Expr → Fresh Expr) : Expr → Fresh Expr
  | .builtin f args => do
    let args ← rebindKey rename f args
    pure (.builtin f args)
  | .select source p body => do
    let (p, body) ← rebind rename p source.ty.element? body
    pure (.select source p body)
  | .letIn p value body => do
    let (p, body) ← rebind rename p (some value.ty) body
    pure (.letIn p value body)
  | e => pure e

theorem replaceList_visit (bound : List Param) (es : List Expr) :
    replaceList rename rule bound es = visit rename rule (es.map fun e => (bound, e)) := by
  induction es with
  | nil => rfl
  | cons e es ih => rw [replaceList, ih, List.map_cons, visit]

theorem replaceFields_visit (bound : List Param) (fields : List (String × Expr)) :
    replaceFields rename rule bound fields = (do
      let (es, hit) ← visit rename rule ((fields.map (·.2)).map fun e => (bound, e))
      pure ((fields.map (·.1)).zip es, hit)) := by
  induction fields with
  | nil => rfl
  | cons field fields ih => simp [replaceFields, ih, visit]

/-- A traversal visits the parts, puts them back together and settles the binder. -/
theorem replaceWith_visit (bound : List Param) (e : Expr) :
    replaceWith rename rule bound e = rule.around bound e (do
      let (es, hit) ← visit rename rule (e.parts bound)
      let d ← settle rename (e.withParts es)
      pure (d, hit)) := by
  cases e <;> simp [replaceWith, parts, children, visit, withParts, settle, replaceList_visit,
    replaceFields_visit, Bool.or_assoc]

end Traversal

end Expr

/-! ## Runs -/

def Rule.rename (p q : Param) : Rule := .identity [(.param p, .param q)]

open Expr

mutual

/-- A traversal by a rule with these parameters bound around, from one number to draw next to another:
the expression becomes another one, and the rule hit or did not. -/
inductive Runs : Rule → List Param → Expr → Nat → Expr → Bool → Nat → Prop
  | before {rule : Rule} {bound : List Param} {e r : Expr} (n : Nat) :
    rule.pre e bound = some r → Runs rule bound e n r true n
  | rebuilt {rule : Rule} {bound : List Param} {e d : Expr} {es : List Expr} {hit : Bool}
    {n m k : Nat} : rule.pre e bound = none → Visits rule (e.parts bound) n es hit m →
    Settles (e.withParts es) m d k → hit = true ∨ rule.post e bound = none →
    Runs rule bound e n d hit k
  | after {rule : Rule} {bound : List Param} {e d r : Expr} {es : List Expr} {n m k : Nat} :
    rule.pre e bound = none → Visits rule (e.parts bound) n es false m →
    Settles (e.withParts es) m d k → rule.post e bound = some r → Runs rule bound e n r true k

/-- Parts are visited one after the other. -/
inductive Visits : Rule → List (List Param × Expr) → Nat → List Expr → Bool → Nat → Prop
  | nil (rule : Rule) (n : Nat) : Visits rule [] n [] false n
  | cons {rule : Rule} {x : List Param × Expr} {xs : List (List Param × Expr)} {e : Expr}
    {es : List Expr} {hit₁ hit₂ : Bool} {n m k : Nat} : Runs rule x.1 x.2 n e hit₁ m →
    Visits rule xs m es hit₂ k → Visits rule (x :: xs) n (e :: es) (hit₁ || hit₂) k

/-- A binder gets a fresh parameter where its value has another type. -/
inductive Settles : Expr → Nat → Expr → Nat → Prop
  | same {e : Expr} (n : Nat) : e.Fits → Settles e n e n
  | select {source body b : Expr} {p : Param} {t : Ty} {hit : Bool} {n k : Nat} :
    source.ty.element? = some t → t ≠ p.ty →
    Runs (.rename p ⟨n, p.name, t⟩) [] body (n + 1) b hit k →
    Settles (.select source p body) n (.select source ⟨n, p.name, t⟩ b) k
  | letIn {value body b : Expr} {p : Param} {hit : Bool} {n k : Nat} : value.ty ≠ p.ty →
    Runs (.rename p ⟨n, p.name, value.ty⟩) [] body (n + 1) b hit k →
    Settles (.letIn p value body) n (.letIn ⟨n, p.name, value.ty⟩ value b) k
  | key {f : Builtin} {list body b : Expr} {p : Param} {t : Ty} {hit : Bool} {n k : Nat} :
    f.sorts = true → list.ty.element? = some t → t ≠ p.ty →
    Runs (.rename p ⟨n, p.name, t⟩) [] body (n + 1) b hit k →
    Settles (.builtin f [list, .lambda p body]) n
      (.builtin f [list, .lambda ⟨n, p.name, t⟩ b]) k

end

/-! ## Renamings -/

theorem Expr.outline_withParts {e : Expr} {es : List Expr}
    (h : es.map outline = e.children.map outline) : (e.withParts es).outline = e.outline := by
  cases e with
  | builtin f args => simp_all [withParts, outline, outlineList_eq, children]
  | record name fields =>
    have hl : es.length = fields.length := by simpa [children] using congrArg List.length h
    simp_all [withParts, outline, outlineFields_eq, children, List.map_fst_zip, List.map_snd_zip]
  | invoke r m args t =>
    match es, h with
    | r' :: args', h => simp_all [withParts, outline, outlineList_eq, children]
  | _ =>
    rcases es with _ | ⟨_, _ | ⟨_, _ | ⟨_, _ | _⟩⟩⟩ <;> simp_all [withParts, outline, children]

/-- The replacement of a parameter answers at that parameter alone. -/
theorem Rule.pre_param {p : Param} {e r d : Expr} {bound : List Param} :
    (Rule.identity [(.param p, r)]).pre e bound = some d ↔
      ∃ x, e = .param x ∧ x.id = p.id ∧ d = r := by
  have answer : (Rule.identity [(.param p, r)]).pre e bound = some d ↔
      (Expr.param p == e) = true ∧ r = d := by
    simp [Rule.identity, List.find?_singleton]
  rw [answer]
  cases e with
  | param x => simp [BEq.beq, eqv, eq_comm]
  | _ => simp [BEq.beq, eqv]

theorem Rule.pre_rename {p q : Param} {e r : Expr} {bound : List Param}
    (h : (Rule.rename p q).pre e bound = some r) :
    ∃ x, e = .param x ∧ x.id = p.id ∧ r = .param q :=
  pre_param.mp h

mutual

/-- A renaming changes types and parameters only. -/
theorem Runs.outline_eq {rule : Rule} {bound : List Param} {e d : Expr} {hit : Bool} {n k : Nat}
    (h : Runs rule bound e n d hit k) {p q : Param} (hrule : rule = .rename p q) :
    d.outline = e.outline := by
  match h with
  | .before _ hpre =>
    obtain ⟨x, rfl, -, rfl⟩ := Rule.pre_rename (hrule ▸ hpre)
    rfl
  | .rebuilt _ hv hs _ =>
    have parts := hv.outline_eq hrule
    rw [← List.map_map, map_snd_parts] at parts
    exact hs.outline_eq.trans (outline_withParts parts)
  | .after _ _ _ hpost =>
    subst hrule
    cases hpost

theorem Visits.outline_eq {rule : Rule} {xs : List (List Param × Expr)} {es : List Expr}
    {hit : Bool} {n k : Nat} (h : Visits rule xs n es hit k) {p q : Param}
    (hrule : rule = .rename p q) : es.map outline = xs.map (outline ∘ (·.2)) := by
  match h with
  | .nil _ _ => rfl
  | .cons hr hv =>
    rw [List.map_cons, List.map_cons, hr.outline_eq hrule, hv.outline_eq hrule]
    rfl

theorem Settles.outline_eq {e d : Expr} {n k : Nat} (h : Settles e n d k) :
    d.outline = e.outline := by
  match h with
  | .same _ _ => rfl
  | .select _ _ hr => rw [outline, hr.outline_eq rfl, outline]
  | .letIn _ hr => rw [outline, hr.outline_eq rfl, outline]
  | .key _ _ _ hr => simp only [outline, outlineList, hr.outline_eq rfl]

end

/-! ## Traversals run -/

section Traversal

variable {rename : Param → Param → Expr → Fresh Expr} {rule : Rule} {able : Expr → Prop}

theorem Fresh.run_bind {α β : Type} (x : Fresh α) (f : α → Fresh β) (n : Nat) :
    (x >>= f) n = f (x n).1 (x n).2 := rfl

/-- What a rule leaves of a visit is what the visit made, or its answer after a visit without a hit. -/
theorem Expr.around_elim {P : Expr → Bool → Nat → Prop} {e : Expr} {bound : List Param}
    (h : rule.pre e bound = none) {visit : Fresh (Expr × Bool)} {n k : Nat} {d : Expr} {hit : Bool}
    (hv : visit n = ((d, hit), k)) (kept : hit = true ∨ rule.post e bound = none → P d hit k)
    (answered : ∀ r, hit = false → rule.post e bound = some r → P r true k) :
    P (rule.around bound e visit n).1.1 (rule.around bound e visit n).1.2
      (rule.around bound e visit n).2 := by
  unfold Rule.around
  rw [h]
  dsimp only
  rw [Fresh.run_bind, hv]
  cases hit with
  | true => exact kept (.inl rfl)
  | false =>
    cases hpost : rule.post e bound with
    | some r => exact answered r rfl hpost
    | none => exact kept (.inr hpost)

theorem Visits.length_eq {xs : List (List Param × Expr)} {es : List Expr} {hit : Bool} {n k : Nat}
    (h : Visits rule xs n es hit k) : es.length = xs.length := by
  match h with
  | .nil _ _ => rfl
  | .cons _ hv => rw [List.length_cons, List.length_cons, hv.length_eq]

theorem Visits.length_children {e : Expr} {bound : List Param} {es : List Expr} {hit : Bool}
    {n k : Nat} (h : Visits rule (e.parts bound) n es hit k) : es.length = e.children.length := by
  rw [h.length_eq, ← map_snd_parts e bound, List.length_map]

/-- Put back together, an access to a member has the type that its record gives it. -/
theorem Expr.withParts_member {e : Expr} {es : List Expr} (h : es.length = e.children.length)
    {target : Expr} {name : String} {t : Ty} (hd : e.withParts es = .member target name t) :
    (e.withParts es).Fits := by
  cases e with
  | member _ name t =>
    rcases es with _ | ⟨target, _ | _⟩ <;> simp [children] at h
    simp [withParts, Fits, Option.getD]
    grind
  | builtin | record | param | constant | null | service => cases hd
  | invoke r m args t =>
    rcases es with _ | _ <;> cases hd
  | _ =>
    rcases es with _ | ⟨_, _ | ⟨_, _ | ⟨_, _ | _⟩⟩⟩ <;> simp_all [withParts, children]

/-- The change of a binder in an expression that `able` holds of runs. -/
structure Able (rename : Param → Param → Expr → Fresh Expr) (able : Expr → Prop) : Prop where
  child : ∀ e c, c ∈ e.children → able e → able c
  runs : ∀ p q b n, able b → ∃ hit, Runs (.rename p q) [] b n (rename p q b n).1 hit (rename p q b n).2

theorem Expr.settle_of_fits {d : Expr} (h : d.Fits) : settle rename d = pure d := by
  cases d with
  | select source p body => simp [settle, rebind_eq body h]
  | letIn p value body =>
    have same : ∀ t, some value.ty = some t → t = p.ty := fun t ht => (Option.some.inj ht).symm.trans h
    simp [settle, rebind_eq body same]
  | builtin f args => simp [settle, rebindKey_eq h]
  | _ => rfl

theorem Expr.settle_settles (h : Able rename able) {d : Expr}
    (hm : ∀ target name t, d = .member target name t → d.Fits) (hd : ∀ c ∈ d.children, able c)
    (n : Nat) : Settles d n (settle rename d n).1 (settle rename d n).2 := by
  by_cases fits : d.Fits
  · rw [settle_of_fits fits]
    exact .same n fits
  cases d with
  | member target name t => exact absurd (hm target name t rfl) fits
  | select source p body =>
    simp only [Fits, not_forall] at fits
    obtain ⟨t, ht, hp⟩ := fits
    obtain ⟨hit, hr⟩ := h.runs p ⟨n, p.name, t⟩ body (n + 1) (hd body (by simp [children]))
    simp only [settle, ht, rebind, if_neg hp]
    exact .select ht hp hr
  | letIn p value body =>
    have hp : value.ty ≠ p.ty := fits
    obtain ⟨hit, hr⟩ := h.runs p ⟨n, p.name, value.ty⟩ body (n + 1) (hd body (by simp [children]))
    simp only [settle, rebind, if_neg hp]
    exact .letIn hp hr
  | builtin f args =>
    rcases args with _ | ⟨list, _ | ⟨key, _ | ⟨_, _⟩⟩⟩
    case cons.cons.nil =>
      simp only [Fits, not_forall] at fits
      obtain ⟨hs, p, hk, t, ht, hp⟩ := fits
      obtain ⟨body, rfl⟩ : ∃ body, key = .lambda p body := by
        cases key <;> cases hk
        exact ⟨_, rfl⟩
      have inside : able body := h.child (.lambda p body) body (by simp [children])
        (hd _ (by simp [children]))
      obtain ⟨hit, hr⟩ := h.runs p ⟨n, p.name, t⟩ body (n + 1) inside
      simp only [settle, rebindKey, hs, ht, rebind, if_neg hp, if_true]
      exact .key hs ht hp hr
    all_goals exact absurd trivial fits
  | _ => exact absurd trivial fits

theorem Expr.visit_visits {xs : List (List Param × Expr)} (h : ∀ x ∈ xs, ∀ n,
      Runs rule x.1 x.2 n (replaceWith rename rule x.1 x.2 n).1.1
        (replaceWith rename rule x.1 x.2 n).1.2 (replaceWith rename rule x.1 x.2 n).2) (n : Nat) :
    Visits rule xs n (visit rename rule xs n).1.1 (visit rename rule xs n).1.2
      (visit rename rule xs n).2 := by
  induction xs generalizing n with
  | nil => exact .nil rule n
  | cons x xs ih =>
    obtain ⟨hx, hxs⟩ := List.forall_mem_cons.mp h
    exact .cons (hx n) (ih hxs _)

theorem Visits.result {xs : List (List Param × Expr)} {es : List Expr} {hit : Bool} {n k : Nat}
    (h : Visits rule xs n es hit k) {c : Expr} (hc : c ∈ es) :
    ∃ x ∈ xs, ∃ hit n k, Runs rule x.1 x.2 n c hit k := by
  match h with
  | .nil _ _ => cases hc
  | .cons hr hv =>
    rcases List.mem_cons.mp hc with rfl | hc
    · exact ⟨_, List.mem_cons_self, _, _, _, hr⟩
    · obtain ⟨x, hx, run⟩ := hv.result hc
      exact ⟨x, List.mem_cons_of_mem _ hx, run⟩

/-- A traversal runs, when the change of a binder in what it makes of a part does. -/
theorem Expr.replaceWith_runs (h : Able rename able) {e : Expr}
    (part : ∀ x ∈ e.subterms, ∀ c ∈ x.children, ∀ bound n d hit k,
      Runs rule bound c n d hit k → able d) (bound : List Param) (n : Nat) :
    Runs rule bound e n (replaceWith rename rule bound e n).1.1
      (replaceWith rename rule bound e n).1.2 (replaceWith rename rule bound e n).2 := by
  induction e using partwise generalizing bound n with
  | h e ih =>
    have each : ∀ x ∈ e.parts bound, ∀ n, Runs rule x.1 x.2 n (replaceWith rename rule x.1 x.2 n).1.1
        (replaceWith rename rule x.1 x.2 n).1.2 (replaceWith rename rule x.1 x.2 n).2 := fun x hx n =>
      ih x.2 (mem_children_of_parts hx) (fun y hy =>
        part y (mem_subterms_of_child (mem_children_of_parts hx) hy)) x.1 n
    have visits := visit_visits each n
    cases hpre : rule.pre e bound with
    | some r =>
      rw [replaceWith_visit, around_some hpre]
      exact .before n hpre
    | none =>
      have length := visits.length_children
      have settles := settle_settles h (fun _ _ _ => withParts_member length) (fun c hc => by
        rw [children_withParts length] at hc
        obtain ⟨x, hx, hit, n, k, run⟩ := visits.result hc
        exact part e (self_mem_subterms e) x.2 (mem_children_of_parts hx) _ _ _ _ _ run)
        (visit rename rule (e.parts bound) n).2
      rw [replaceWith_visit]
      exact around_elim hpre rfl (.rebuilt hpre visits settles) fun r hhit =>
        .after hpre (hhit ▸ visits) settles

/-- Renaming in what has at most as many parts as there are levels runs. -/
theorem Expr.renameTo_runs (levels : Nat) {e : Expr} (h : e.size ≤ levels) (p q : Param) (n : Nat) :
    ∃ hit, Runs (.rename p q) [] e n (renameTo levels p q e n).1 hit (renameTo levels p q e n).2 := by
  induction levels generalizing e p q n with
  | zero => exact absurd (size_pos e) (by omega)
  | succ levels ih =>
    have able : Able (renameTo levels) fun b => b.size ≤ levels :=
      ⟨fun e c hc he => Nat.le_trans (Nat.le_of_lt (size_lt_of_child hc)) he, fun p q b n hb => ih hb p q n⟩
    -- A renaming keeps the size, so what it made of a part still fits one level fewer.
    refine ⟨_, replaceWith_runs able (fun x hx c hc bound n d hit k run => ?_) [] n⟩
    rw [size_eq_of_outline (run.outline_eq rfl)]
    have below : c.size < x.size := size_lt_of_child hc
    have within : x.size ≤ e.size := size_le_of_subterm hx
    omega

theorem Expr.able_rename : Able Expr.rename fun _ => True :=
  ⟨fun _ _ _ _ => trivial, fun p q b n _ => renameTo_runs b.size (Nat.le_refl _) p q n⟩

/-- A traversal by a rule runs. -/
theorem Expr.replaceBy_runs (rule : Rule) (e : Expr) (n : Nat) :
    Runs rule [] e n (e.replaceBy rule n).1.1 (e.replaceBy rule n).1.2 (e.replaceBy rule n).2 :=
  replaceWith_runs able_rename (fun _ _ _ _ _ _ _ _ _ _ => trivial) [] n

theorem Expr.replaceAll_runs {pairs : List (Expr × Expr)} (h : pairs ≠ []) (e : Expr) (n : Nat) :
    ∃ hit k, Runs (.identity pairs) [] e n (e.replaceAll pairs n).1 hit k := by
  unfold replaceAll
  rw [if_neg (by simpa using h)]
  exact ⟨_, _, replaceBy_runs _ e n⟩

theorem Expr.replaceByType_runs (t : Ty) (r e : Expr) (n : Nat) :
    ∃ hit k, Runs (.byType t r) [] e n (e.replaceByType t r n).1 hit k :=
  ⟨_, _, replaceBy_runs _ e n⟩

theorem Expr.replaceParamsByType_runs (t : Ty) (r e : Expr) (n : Nat) :
    ∃ hit k, Runs (.paramsByType t r) [] e n (e.replaceParamsByType t r n).1 hit k :=
  ⟨_, _, replaceBy_runs _ e n⟩

end Traversal

end FieldPlan
