import FieldPlan.Expr.Replacement
import FieldPlan.Proofs.Expr.Renumber

/-!
# Replacement under new numbers

Replacement draws parameters. Started from the new number of where it was started it draws the new
numbers of what it drew, and gives the same expression under the new numbers.

* `Fresh.Renumbered` : a drawing that does under new numbers what another one does;
* `Rule.Renumbers` : rules that replace the same parts;
* `Expr.replaceWith_renumbered` : one traversal;
* `Expr.replaceAll_renumbered`, `Expr.replaceParam_renumbered`,
  `Expr.replaceParamsByType_renumbered` : the replacements that planning uses.
-/

namespace FieldPlan

variable {low : Nat} {ρ : Renumbering low} {α β γ δ : Type}

/-! ## Drawings -/

/-- A drawing that does under new numbers what another one does; `r` gives its result. -/
def Fresh.Renumbered (ρ : Renumbering low) (r : α → β) (x : Fresh α) (y : Fresh β) : Prop :=
  ∀ n, low ≤ n → y (ρ n) = (r (x n).1, ρ (x n).2) ∧ low ≤ (x n).2

namespace Fresh.Renumbered

theorem pure {r : α → β} {a : α} {b : β} (h : b = r a) :
    Fresh.Renumbered ρ r (Pure.pure a) (Pure.pure b) := fun _ hn => ⟨h ▸ rfl, hn⟩

theorem bind {r : α → β} {t : γ → δ} {x : Fresh α} {y : Fresh β} {k : α → Fresh γ}
    {l : β → Fresh δ} (hx : Fresh.Renumbered ρ r x y)
    (hk : ∀ a, Fresh.Renumbered ρ t (k a) (l (r a))) : Fresh.Renumbered ρ t (x >>= k) (y >>= l) := by
  intro n hn
  obtain ⟨hy, hlow⟩ := hx n hn
  show (let p := y (ρ n); l p.1 p.2) = _ ∧ _
  rw [hy]
  exact hk (x n).1 (x n).2 hlow

theorem param (name : String) (t : Ty) :
    Fresh.Renumbered ρ (Param.renumber ρ) (Fresh.param name t) (Fresh.param name t) := by
  intro n hn
  refine ⟨Prod.ext rfl ?_, Nat.le_succ_of_le hn⟩
  exact (ρ.next n hn).symm

end Fresh.Renumbered

/-! ## Rules -/

/-- The second rule replaces under new numbers what the first one replaces. -/
structure Rule.Renumbers (ρ : Nat → Nat) (rule rule' : Rule) : Prop where
  pre : ∀ e bound, rule'.pre (e.renumber ρ) (bound.map (Param.renumber ρ)) =
    (rule.pre e bound).map (Expr.renumber ρ)
  post : ∀ e bound, rule'.post (e.renumber ρ) (bound.map (Param.renumber ρ)) =
    (rule.post e bound).map (Expr.renumber ρ)

namespace Rule

theorem identity_renumbers (ρ : Renumbering low) (pairs : List (Expr × Expr)) :
    (identity pairs).Renumbers ρ
      (identity (pairs.map (Prod.map (Expr.renumber ρ) (Expr.renumber ρ)))) where
  pre e bound := by
    have same : (fun pair : Expr × Expr => pair.1 == e.renumber ρ) ∘
        Prod.map (Expr.renumber ρ) (Expr.renumber ρ) = fun pair => pair.1 == e :=
      funext fun pair => Expr.beq_renumber ρ pair.1 e
    simp only [identity, List.find?_map, same, Option.map_map]
    rfl
  post e bound := rfl

theorem paramsByType_renumbers (ρ : Renumbering low) (target : Ty) (replacement : Expr) :
    (paramsByType target replacement).Renumbers ρ
      (paramsByType target (replacement.renumber ρ)) where
  pre e bound := by
    cases e with
    | param p =>
      have same : (Expr.param (p.renumber ρ) == replacement.renumber ρ) =
          (Expr.param p == replacement) := Expr.beq_renumber ρ (.param p) replacement
      have free : (bound.map (Param.renumber ρ)).any (·.id == (p.renumber ρ).id) =
          bound.any (·.id == p.id) := by
        rw [List.any_map]
        congr 1
        funext q
        simp [BEq.beq, ρ.eq_iff]
      simp only [paramsByType, Expr.renumber, same, free, Param.renumber_ty]
      split <;> rfl
    | _ => rfl
  post e bound := rfl

end Rule

/-- What a traversal gives, under new numbers. -/
abbrev Expr.hit (ρ : Nat → Nat) : Expr × Bool → Expr × Bool := Prod.map (Expr.renumber ρ) id

theorem Rule.around_renumbered {rule rule' : Rule} (h : rule.Renumbers ρ rule') (bound : List Param)
    (e : Expr) {parts parts' : Fresh (Expr × Bool)}
    (hp : Fresh.Renumbered ρ (Expr.hit ρ) parts parts') :
    Fresh.Renumbered ρ (Expr.hit ρ) (rule.around bound e parts)
      (rule'.around (bound.map (Param.renumber ρ)) (e.renumber ρ) parts') := by
  unfold Rule.around
  rw [h.pre]
  cases rule.pre e bound with
  | some r => exact .pure rfl
  | none =>
    refine hp.bind fun ⟨rebuilt, hit⟩ => ?_
    cases hit with
    | true => exact .pure rfl
    | false =>
      dsimp only [Expr.hit, Prod.map_apply, id, Bool.false_eq_true, if_false]
      rw [h.post]
      cases rule.post e bound with
      | some r => exact .pure rfl
      | none => exact .pure rfl

namespace Expr

/-! ## Traversal -/

/-- A change of binders that does under new numbers what another one does. -/
def RenameRenumbered (ρ : Renumbering low) (rename : Param → Param → Expr → Fresh Expr) : Prop :=
  ∀ p q e, Fresh.Renumbered ρ (renumber ρ) (rename p q e)
    (rename (p.renumber ρ) (q.renumber ρ) (e.renumber ρ))

section Traversal

variable {rename : Param → Param → Expr → Fresh Expr} {rule rule' : Rule}

theorem rebind_renumbered (hrename : RenameRenumbered ρ rename) (p : Param) (t : Option Ty) (body : Expr) :
    Fresh.Renumbered ρ (Prod.map (Param.renumber ρ) (renumber ρ)) (rebind rename p t body)
      (rebind rename (p.renumber ρ) t (body.renumber ρ)) := by
  unfold rebind
  cases t with
  | none => exact .pure rfl
  | some t =>
    dsimp only
    by_cases ht : t = p.ty
    · rw [if_pos ht, if_pos (c := t = (p.renumber ρ).ty) ht]
      exact .pure rfl
    · rw [if_neg ht, if_neg (c := t = (p.renumber ρ).ty) ht]
      refine (Fresh.Renumbered.param p.name t).bind fun q => ?_
      exact (hrename p q body).bind fun body => .pure rfl

theorem rebindKey_renumbered (hrename : RenameRenumbered ρ rename) (f : Builtin) (args : List Expr) :
    Fresh.Renumbered ρ (List.map (renumber ρ)) (rebindKey rename f args)
      (rebindKey rename f (args.map (renumber ρ))) := by
  match args with
  | [] => exact .pure rfl
  | [_] => exact .pure rfl
  | [list, .lambda p body] =>
    simp only [rebindKey, List.map_cons, List.map_nil, renumber, ty_renumber]
    by_cases hf : f.sorts = true
    · rw [if_pos hf, if_pos hf]
      exact (rebind_renumbered hrename p _ body).bind fun ⟨p, body⟩ => .pure rfl
    · rw [if_neg hf, if_neg hf]
      exact .pure rfl
  | [_, .param _] | [_, .constant _ _] | [_, .null _] | [_, .service _] | [_, .member _ _ _]
  | [_, .condition _ _ _] | [_, .equal _ _] | [_, .builtin _ _] | [_, .invoke _ _ _ _]
  | [_, .record _ _] | [_, .select _ _ _] | [_, .letIn _ _ _] => exact .pure rfl
  | _ :: key :: _ :: _ => cases key <;> exact .pure rfl

mutual

/-- One traversal gives under new numbers what it gave. -/
theorem replaceWith_renumbered (hrename : RenameRenumbered ρ rename)
    (hrule : rule.Renumbers ρ rule') (bound : List Param) (e : Expr) :
    Fresh.Renumbered ρ (hit ρ) (replaceWith rename rule bound e)
      (replaceWith rename rule' (bound.map (Param.renumber ρ)) (e.renumber ρ)) := by
  match e with
  | .param _ | .constant _ _ | .null _ | .service _ =>
    exact Rule.around_renumbered hrule bound _ (.pure rfl)
  | .member target name t =>
    simp only [renumber, replaceWith]
    refine Rule.around_renumbered hrule bound (.member target name t) ?_
    refine (replaceWith_renumbered hrename hrule bound target).bind fun ⟨target, hit⟩ => .pure ?_
    simp [renumber]
  | .condition test a b =>
    simp only [renumber, replaceWith]
    refine Rule.around_renumbered hrule bound (.condition test a b) ?_
    refine (replaceWith_renumbered hrename hrule bound test).bind fun ⟨test, hit₁⟩ => ?_
    refine (replaceWith_renumbered hrename hrule bound a).bind fun ⟨a, hit₂⟩ => ?_
    exact (replaceWith_renumbered hrename hrule bound b).bind fun ⟨b, hit₃⟩ => .pure rfl
  | .equal a b =>
    simp only [renumber, replaceWith]
    refine Rule.around_renumbered hrule bound (.equal a b) ?_
    refine (replaceWith_renumbered hrename hrule bound a).bind fun ⟨a, hit₁⟩ => ?_
    exact (replaceWith_renumbered hrename hrule bound b).bind fun ⟨b, hit₂⟩ => .pure rfl
  | .builtin f args =>
    simp only [renumber, replaceWith]
    refine Rule.around_renumbered hrule bound (.builtin f args) ?_
    refine (replaceList_renumbered hrename hrule bound args).bind fun ⟨args, hit⟩ => ?_
    refine (rebindKey_renumbered hrename f args).bind fun args => .pure ?_
    simp [renumber]
  | .invoke r m args t =>
    simp only [renumber, replaceWith]
    refine Rule.around_renumbered hrule bound (.invoke r m args t) ?_
    refine (replaceWith_renumbered hrename hrule bound r).bind fun ⟨r, hit₁⟩ => ?_
    refine (replaceList_renumbered hrename hrule bound args).bind fun ⟨args, hit₂⟩ => .pure ?_
    simp [renumber]
  | .lambda p body =>
    simp only [renumber, replaceWith]
    refine Rule.around_renumbered hrule bound (.lambda p body) ?_
    exact (replaceWith_renumbered hrename hrule (p :: bound) body).bind fun ⟨body, hit⟩ => .pure rfl
  | .record name fields =>
    simp only [renumber, replaceWith]
    refine Rule.around_renumbered hrule bound (.record name fields) ?_
    refine (replaceFields_renumbered hrename hrule bound fields).bind fun ⟨fields, hit⟩ => .pure ?_
    simp [renumber]
  | .select source p body =>
    simp only [renumber, replaceWith]
    refine Rule.around_renumbered hrule bound (.select source p body) ?_
    refine (replaceWith_renumbered hrename hrule bound source).bind fun ⟨source, hit₁⟩ => ?_
    refine (replaceWith_renumbered hrename hrule (p :: bound) body).bind fun ⟨body, hit₂⟩ => ?_
    dsimp only [Prod.map_apply, ty_renumber]
    rw [ty_renumber]
    exact (rebind_renumbered hrename p _ body).bind fun ⟨p, body⟩ => .pure rfl
  | .letIn p value body =>
    simp only [renumber, replaceWith]
    refine Rule.around_renumbered hrule bound (.letIn p value body) ?_
    refine (replaceWith_renumbered hrename hrule bound value).bind fun ⟨value, hit₁⟩ => ?_
    refine (replaceWith_renumbered hrename hrule (p :: bound) body).bind fun ⟨body, hit₂⟩ => ?_
    dsimp only [Prod.map_apply]
    rw [ty_renumber]
    exact (rebind_renumbered hrename p _ body).bind fun ⟨p, body⟩ => .pure rfl

theorem replaceList_renumbered (hrename : RenameRenumbered ρ rename)
    (hrule : rule.Renumbers ρ rule') (bound : List Param) (es : List Expr) :
    Fresh.Renumbered ρ (Prod.map (List.map (renumber ρ)) id) (replaceList rename rule bound es)
      (replaceList rename rule' (bound.map (Param.renumber ρ)) (renumberList ρ es)) := by
  match es with
  | [] => exact .pure rfl
  | e :: es =>
    simp only [renumberList, replaceList]
    refine (replaceWith_renumbered hrename hrule bound e).bind fun ⟨e, hit₁⟩ => ?_
    exact (replaceList_renumbered hrename hrule bound es).bind fun ⟨es, hit₂⟩ => .pure rfl

theorem replaceFields_renumbered (hrename : RenameRenumbered ρ rename)
    (hrule : rule.Renumbers ρ rule') (bound : List Param) (fields : List (String × Expr)) :
    Fresh.Renumbered ρ (Prod.map (List.map (Prod.map id (renumber ρ))) id)
      (replaceFields rename rule bound fields)
      (replaceFields rename rule' (bound.map (Param.renumber ρ)) (renumberFields ρ fields)) := by
  match fields with
  | [] => exact .pure rfl
  | (name, e) :: fields =>
    simp only [renumberFields, replaceFields]
    refine (replaceWith_renumbered hrename hrule bound e).bind fun ⟨e, hit₁⟩ => ?_
    exact (replaceFields_renumbered hrename hrule bound fields).bind fun ⟨fields, hit₂⟩ => .pure rfl

end

end Traversal

/-! ## Replacement -/

theorem renameTo_renumbered (n : Nat) : RenameRenumbered ρ (renameTo n) := by
  induction n with
  | zero => exact fun p q e => .pure rfl
  | succ n ih =>
    intro p q e
    exact (replaceWith_renumbered ih (Rule.identity_renumbers ρ [(.param p, .param q)]) [] e).bind
      fun _ => .pure rfl

theorem rename_renumbered : RenameRenumbered ρ rename := by
  intro p q e
  unfold rename
  rw [size_renumber]
  exact renameTo_renumbered e.size p q e

theorem replaceAll_renumbered (e : Expr) (pairs : List (Expr × Expr)) :
    Fresh.Renumbered ρ (renumber ρ) (e.replaceAll pairs)
      ((e.renumber ρ).replaceAll (pairs.map (Prod.map (renumber ρ) (renumber ρ)))) := by
  unfold replaceAll
  rw [List.isEmpty_map]
  split
  · exact .pure rfl
  · exact (replaceWith_renumbered rename_renumbered (Rule.identity_renumbers ρ pairs) [] e).bind
      fun _ => .pure rfl

theorem replaceParam_renumbered (e : Expr) (p : Param) (r : Expr) :
    Fresh.Renumbered ρ (renumber ρ) (e.replaceParam p r)
      ((e.renumber ρ).replaceParam (p.renumber ρ) (r.renumber ρ)) :=
  replaceAll_renumbered e [(.param p, r)]

theorem replaceParamsByType_renumbered (e : Expr) (t : Ty) (r : Expr) :
    Fresh.Renumbered ρ (renumber ρ) (e.replaceParamsByType t r)
      ((e.renumber ρ).replaceParamsByType t (r.renumber ρ)) :=
  (replaceWith_renumbered rename_renumbered (Rule.paramsByType_renumbers ρ t r) [] e).bind
    fun _ => .pure rfl

end Expr

end FieldPlan
