import FieldPlan.Proofs.Expr.Parts

/-!
# Replacement as a swap

A traversal by equality draws no parameters and is a plain swap as long as no binder changes its
type.

* `Expr.Fits`, `Expr.Coherent` : the type that an expression gives to a member or a binder is the
  one that its parts have, here and everywhere;
* `Rule.pick`, `Expr.Steady` : the answers of pairs, and that a swap leaves every binder its type;
* `Expr.replaceAll_eq` : replacement is a swap;
* `Expr.Renames` : replacement by parameters of the same types, which is steady
  (`Renames.replaceAll_eq`, `Renames.ty_swap`).
-/

namespace FieldPlan

/-- The replacement of an expression by pairs, the first that matches. -/
def Rule.pick (pairs : List (Expr × Expr)) (e : Expr) : Option Expr :=
  (pairs.find? fun pair => pair.1 == e).map (·.2)

namespace Expr

mutual

theorem eqv_refl (e : Expr) : eqv e e = true := by
  match e with
  | .param _ => simp [eqv]
  | .constant v _ => simp [eqv, BEq.beq, Json.eqv_refl v]
  | .null _ => simp [eqv]
  | .service _ => simp [eqv]
  | .member t _ _ => simp [eqv, eqv_refl t]
  | .condition a b c => simp [eqv, eqv_refl a, eqv_refl b, eqv_refl c]
  | .equal a b => simp [eqv, eqv_refl a, eqv_refl b]
  | .builtin _ args => simp [eqv, eqvList_refl args]
  | .invoke r _ args _ => simp [eqv, eqv_refl r, eqvList_refl args]
  | .lambda _ b => simp [eqv, eqv_refl b]
  | .record _ fields => simp [eqv, eqvFields_refl fields]
  | .select s _ b => simp [eqv, eqv_refl s, eqv_refl b]
  | .letIn _ v b => simp [eqv, eqv_refl v, eqv_refl b]

theorem eqvList_refl (es : List Expr) : eqvList es es = true := by
  match es with
  | [] => rfl
  | e :: es => simp [eqvList, eqv_refl e, eqvList_refl es]

theorem eqvFields_refl (fields : List (String × Expr)) : eqvFields fields fields = true := by
  match fields with
  | [] => rfl
  | (_, e) :: fields => simp [eqvFields, eqv_refl e, eqvFields_refl fields]

end

def lambda? : Expr → Option Param
  | .lambda p _ => some p
  | _ => none

/-- The types given to a member or a binder agree with the types of the parts. -/
def Fits : Expr → Prop
  | .member t name ty => ∀ u, t.ty.member? name = some u → u = ty
  | .select s p _ => ∀ u, s.ty.element? = some u → u = p.ty
  | .letIn p v _ => v.ty = p.ty
  | .builtin f [list, key] =>
    f.sorts = true → ∀ p, key.lambda? = some p → ∀ u, list.ty.element? = some u → u = p.ty
  | _ => True

/-- The types of members and binders agree everywhere. -/
def Coherent (e : Expr) : Prop := ∀ x ∈ e.subterms, x.Fits

/-- A swap leaves every binder its type. -/
def Steady (f : Expr → Option Expr) (e : Expr) : Prop :=
  ∀ x ∈ e.subterms, f x = none → (x.mapParts (swap f)).Fits

theorem Coherent.child {e c : Expr} (h : e.Coherent) (hc : c ∈ e.children) : c.Coherent :=
  fun x hx => h x (mem_subterms_of_child hc hx)

theorem Steady.child {f : Expr → Option Expr} {e c : Expr} (h : e.Steady f) (hc : c ∈ e.children) :
    c.Steady f := fun x hx => h x (mem_subterms_of_child hc hx)

theorem coherent_iff {e : Expr} : e.Coherent ↔ e.Fits ∧ ∀ c ∈ e.children, c.Coherent := by
  constructor
  · intro h
    exact ⟨h e (self_mem_subterms e), fun c hc => h.child hc⟩
  · rintro ⟨he, hc⟩ x hx
    rcases mem_subterms.mp hx with rfl | ⟨c, hcm, hx⟩
    · exact he
    · exact hc c hcm x hx

theorem coherent_param (p : Param) : (Expr.param p).Coherent := by
  rw [coherent_iff]
  simp [Fits, children]

theorem Coherent.swap {f : Expr → Option Expr} {e : Expr} (h : e.Steady f)
    (hf : ∀ x ∈ e.subterms, ∀ r, f x = some r → r.Coherent) : (e.swap f).Coherent := by
  intro x hx
  rcases mem_subterms_swap hx with ⟨y, hy, r, hr, hx⟩ | ⟨y, hy, hn, rfl⟩
  · exact hf y hy r hr x hx
  · exact h y hy hn

/-! ## The traversal -/

/-- The direct parts with the parameters bound around them. -/
def parts (bound : List Param) : Expr → List (List Param × Expr)
  | .lambda p b => [(p :: bound, b)]
  | .select s p b => [(bound, s), (p :: bound, b)]
  | .letIn p v b => [(bound, v), (p :: bound, b)]
  | e => e.children.map fun c => (bound, c)

theorem mem_children_of_parts {e : Expr} {bound : List Param} {x : List Param × Expr}
    (h : x ∈ e.parts bound) : x.2 ∈ e.children := by
  cases e <;> simp [parts, children] at h ⊢
  all_goals grind

end Expr

/-- A rule has the answers of `f` as long as `P` holds, and `P` is passed on to the parts. -/
structure Rule.Follows (rule : Rule) (f : Expr → Option Expr) (P : List Param → Expr → Prop) :
    Prop where
  pre : ∀ bound e, P bound e → rule.pre e bound = f e
  post : ∀ bound e, P bound e → f e = none → rule.post e bound = none
  part : ∀ bound e, P bound e → f e = none → ∀ x ∈ e.parts bound, P x.1 x.2

theorem Rule.follows_identity (pairs : List (Expr × Expr)) :
    (Rule.identity pairs).Follows (Rule.pick pairs) fun _ _ => True :=
  ⟨fun _ _ _ => rfl, fun _ _ _ _ => rfl, fun _ _ _ _ _ _ => trivial⟩

namespace Expr

section Traversal

variable {rename : Param → Param → Expr → Fresh Expr} {rule : Rule} {f : Expr → Option Expr}
  {P : List Param → Expr → Prop}

theorem around_some {e r : Expr} {bound : List Param} (h : rule.pre e bound = some r)
    (visit : Fresh (Expr × Bool)) : rule.around bound e visit = pure (r, true) := by
  unfold Rule.around
  rw [h]

theorem around_none {e : Expr} {bound : List Param} (h : rule.pre e bound = none)
    (h' : rule.post e bound = none) (rebuilt : Expr) (hit : Bool) :
    rule.around bound e (pure (rebuilt, hit)) = pure (rebuilt, hit) := by
  unfold Rule.around
  rw [h, h']
  cases hit <;> rfl

theorem rebind_eq {p : Param} {t : Option Ty} (body : Expr) (h : ∀ u, t = some u → u = p.ty) :
    rebind rename p t body = pure (p, body) := by
  cases t with
  | none => rfl
  | some u => simp [rebind, h u rfl]

theorem rebindKey_eq {g : Builtin} {args : List Expr} (h : (Expr.builtin g args).Fits) :
    rebindKey rename g args = pure args := by
  unfold rebindKey
  split
  · rename_i list p body
    cases hs : g.sorts with
    | false => simp
    | true => simp [rebind_eq body (h hs p rfl)]
  · rfl

theorem replaceList_eq {bound : List Param} (es : List Expr)
    (h : ∀ e ∈ es, ∃ hit, replaceWith rename rule bound e = pure (e.swap f, hit)) :
    ∃ hit, replaceList rename rule bound es = pure (es.map (swap f), hit) := by
  induction es with
  | nil => exact ⟨false, rfl⟩
  | cons e es ih =>
    obtain ⟨hit₁, h₁⟩ := h e (List.mem_cons_self ..)
    obtain ⟨hit₂, h₂⟩ := ih fun e he => h e (List.mem_cons_of_mem _ he)
    exact ⟨hit₁ || hit₂, by simp [replaceList, h₁, h₂]⟩

theorem replaceFields_eq {bound : List Param} (fields : List (String × Expr))
    (h : ∀ e ∈ fields.map (·.2), ∃ hit, replaceWith rename rule bound e = pure (e.swap f, hit)) :
    ∃ hit, replaceFields rename rule bound fields =
      pure (fields.map fun field => (field.1, field.2.swap f), hit) := by
  induction fields with
  | nil => exact ⟨false, rfl⟩
  | cons field fields ih =>
    obtain ⟨hit₁, h₁⟩ := h field.2 (List.mem_cons_self ..)
    obtain ⟨hit₂, h₂⟩ := ih fun e he => h e (List.mem_cons_of_mem _ he)
    exact ⟨hit₁ || hit₂, by simp [replaceFields, h₁, h₂]⟩

theorem replaceWith_eq (follows : rule.Follows f P) {e : Expr} (hs : e.Steady f)
    {bound : List Param} (hP : P bound e) :
    ∃ hit, replaceWith rename rule bound e = pure (e.swap f, hit) := by
  induction e using partwise generalizing bound with
  | h e ih =>
    have pre := follows.pre bound e hP
    cases hp : f e with
    | some r =>
      refine ⟨true, ?_⟩
      rw [swap_some hp]
      cases e <;> exact around_some (pre.trans hp) _
    | none =>
      have fits := hs e (self_mem_subterms e) hp
      have part : ∀ x ∈ e.parts bound, ∃ hit, replaceWith rename rule x.1 x.2 =
          pure (x.2.swap f, hit) := fun x hx => ih x.2 (mem_children_of_parts hx)
        (hs.child (mem_children_of_parts hx)) (follows.part bound e hP hp x hx)
      have none := around_none (pre.trans hp) (follows.post bound e hP hp)
      rw [swap_none hp]
      cases e with
      | param | constant | null | service => exact ⟨false, none ..⟩
      | member t name ty =>
        obtain ⟨hit, h⟩ := part (bound, t) (by simp [parts, children])
        exact ⟨hit, by simp [replaceWith, h, none, mapParts]⟩
      | condition a b c =>
        obtain ⟨hit₁, h₁⟩ := part (bound, a) (by simp [parts, children])
        obtain ⟨hit₂, h₂⟩ := part (bound, b) (by simp [parts, children])
        obtain ⟨hit₃, h₃⟩ := part (bound, c) (by simp [parts, children])
        exact ⟨hit₁ || hit₂ || hit₃, by simp [replaceWith, h₁, h₂, h₃, none, mapParts]⟩
      | equal a b =>
        obtain ⟨hit₁, h₁⟩ := part (bound, a) (by simp [parts, children])
        obtain ⟨hit₂, h₂⟩ := part (bound, b) (by simp [parts, children])
        exact ⟨hit₁ || hit₂, by simp [replaceWith, h₁, h₂, none, mapParts]⟩
      | builtin g args =>
        obtain ⟨hit, h⟩ := replaceList_eq args fun c hc =>
          part (bound, c) (by simp [parts, children, hc])
        exact ⟨hit, by simp [replaceWith, h, rebindKey_eq fits, none, mapParts]⟩
      | invoke r m args ty =>
        obtain ⟨hit₁, h₁⟩ := part (bound, r) (by simp [parts, children])
        obtain ⟨hit₂, h₂⟩ := replaceList_eq args fun c hc =>
          part (bound, c) (by simp [parts, children, hc])
        exact ⟨hit₁ || hit₂, by simp [replaceWith, h₁, h₂, none, mapParts]⟩
      | lambda p b =>
        obtain ⟨hit, h⟩ := part (p :: bound, b) (by simp [parts])
        exact ⟨hit, by simp [replaceWith, h, none, mapParts]⟩
      | record name fields =>
        obtain ⟨hit, h⟩ := replaceFields_eq fields fun c hc =>
          part (bound, c) (by simp only [parts, children, List.mem_map]; exact ⟨c, by simpa using hc, rfl⟩)
        exact ⟨hit, by simp [replaceWith, h, none, mapParts]⟩
      | select s p b =>
        obtain ⟨hit₁, h₁⟩ := part (bound, s) (by simp [parts])
        obtain ⟨hit₂, h₂⟩ := part (p :: bound, b) (by simp [parts])
        exact ⟨hit₁ || hit₂, by simp [replaceWith, h₁, h₂, rebind_eq _ fits, none, mapParts]⟩
      | letIn p v b =>
        obtain ⟨hit₁, h₁⟩ := part (bound, v) (by simp [parts])
        obtain ⟨hit₂, h₂⟩ := part (p :: bound, b) (by simp [parts])
        have same : rebind rename p (some (v.swap f).ty) (b.swap f) = pure (p, b.swap f) :=
          rebind_eq _ fun u hu => (Option.some.inj hu).symm.trans fits
        exact ⟨hit₁ || hit₂, by simp [replaceWith, h₁, h₂, same, none, mapParts]⟩

theorem replaceBy_eq (follows : rule.Follows f P) {e : Expr} (hs : e.Steady f) (hP : P [] e) :
    ∃ hit, e.replaceBy rule = pure (e.swap f, hit) :=
  replaceWith_eq follows hs hP

end Traversal

/-! ## Swaps that change little -/

theorem mapParts_self {g : Expr → Expr} {e : Expr} (he : e.Fits) (hg : ∀ c ∈ e.children, g c = c) :
    e.mapParts g = e := by
  cases e with
  | member t name ty =>
    have ht : g t = t := hg t (by simp [children])
    simp only [mapParts, ht]
    cases h : t.ty.member? name with
    | none => rfl
    | some u => rw [he u h, Option.getD_some]
  | builtin f args =>
    have ha : args.map g = args := (List.map_congr_left hg).trans (List.map_id args)
    rw [mapParts, ha]
  | invoke r m args ty =>
    have ha : args.map g = args :=
      (List.map_congr_left fun c hc => hg c (by simp [children, hc])).trans (List.map_id args)
    rw [mapParts, ha, hg r (by simp [children])]
  | record name fields =>
    have hf : fields.map (fun field => (field.1, g field.2)) = fields := by
      refine (List.map_congr_left fun field hf => ?_).trans (List.map_id fields)
      rw [hg field.2 (List.mem_map_of_mem hf)]
      rfl
    rw [mapParts, hf]
  | _ => simp_all [mapParts, children]

theorem swap_self {f : Expr → Option Expr} {e : Expr} (he : e.Coherent)
    (hf : ∀ x ∈ e.subterms, f x = none) : e.swap f = e := by
  induction e using partwise with
  | h e ih =>
    rw [swap_none (hf e (self_mem_subterms e))]
    exact mapParts_self (he e (self_mem_subterms e)) fun c hc =>
      ih c hc (he.child hc) fun x hx => hf x (mem_subterms_of_child hc hx)

theorem replaceAll_eq {pairs : List (Expr × Expr)} {e : Expr} (he : e.Coherent)
    (hs : e.Steady (Rule.pick pairs)) : e.replaceAll pairs = pure (e.swap (Rule.pick pairs)) := by
  unfold replaceAll
  cases pairs with
  | nil =>
    have h : e.swap (Rule.pick []) = e := swap_self he fun _ _ => rfl
    rw [h]
    rfl
  | cons pair pairs =>
    obtain ⟨hit, h⟩ := replaceBy_eq (Rule.follows_identity (pair :: pairs)) hs trivial
    simp [h]

/-! ## Replacement by parameters of the same types -/

/-- What an expression passes on to the expression around it is unchanged. -/
def SameFront (e e' : Expr) : Prop :=
  e'.ty = e.ty ∧ e'.isNullLiteral = e.isNullLiteral ∧ e'.lambda? = e.lambda?

/-- The answers are parameters that pass on what the expressions do that they replace. -/
def Renames (f : Expr → Option Expr) (e : Expr) : Prop :=
  ∀ x ∈ e.subterms, ∀ r, f x = some r → (∃ p, r = .param p) ∧ x.SameFront r

theorem Renames.child {f : Expr → Option Expr} {e c : Expr} (h : e.Renames f)
    (hc : c ∈ e.children) : c.Renames f := fun x hx => h x (mem_subterms_of_child hc hx)

theorem headTy_map {g : Expr → Expr} (es : List Expr) (h : ∀ e ∈ es, (g e).ty = e.ty) :
    headTy (es.map g) = headTy es := by
  cases es with
  | nil => rfl
  | cons e es => exact h e (List.mem_cons_self ..)

theorem fieldTys_map {g : Expr → Expr} (fields : List (String × Expr))
    (h : ∀ e ∈ fields.map (·.2), (g e).ty = e.ty) :
    fieldTys (fields.map fun field => (field.1, g field.2)) = fieldTys fields := by
  induction fields with
  | nil => rfl
  | cons field fields ih =>
    simp only [List.map_cons, List.mem_cons, forall_eq_or_imp] at h
    simp [fieldTys, h.1, ih h.2]

theorem sameFront_mapParts {g : Expr → Expr} {e : Expr} (he : e.Fits)
    (hg : ∀ c ∈ e.children, c.SameFront (g c)) : e.SameFront (e.mapParts g) := by
  refine ⟨?_, by cases e <;> rfl, by cases e <;> rfl⟩
  cases e with
  | member t name ty =>
    have ht : (g t).ty = t.ty := (hg t (by simp [children])).1
    simp only [mapParts, Expr.ty, ht]
    cases h : t.ty.member? name with
    | none => rfl
    | some u => rw [he u h, Option.getD_some]
  | condition a b c =>
    obtain ⟨hb, hb', -⟩ := hg b (by simp [children])
    obtain ⟨hc, hc', -⟩ := hg c (by simp [children])
    simp [mapParts, Expr.ty, choiceTy, hb, hb', hc, hc']
  | builtin f args => simp [mapParts, Expr.ty, headTy_map args fun c hc => (hg c hc).1]
  | record name fields => simp [mapParts, Expr.ty, fieldTys_map fields fun c hc => (hg c hc).1]
  | lambda p b => exact (hg b (by simp [children])).1
  | select s p b =>
    have hb : (g b).ty = b.ty := (hg b (by simp [children])).1
    simp [mapParts, Expr.ty, hb]
  | letIn p v b => exact (hg b (by simp [children])).1
  | _ => rfl

theorem fits_mapParts {g : Expr → Expr} {e : Expr} (he : e.Fits)
    (hg : ∀ c ∈ e.children, c.SameFront (g c)) : (e.mapParts g).Fits := by
  cases e with
  | member t name ty =>
    intro u hu
    simp [hu]
  | select s p b =>
    have hs : (g s).ty = s.ty := (hg s (by simp [children])).1
    intro u hu
    exact he u (hs ▸ hu)
  | letIn p v b =>
    have hv : (g v).ty = v.ty := (hg v (by simp [children])).1
    exact hv.trans he
  | builtin f args =>
    rcases args with _ | ⟨list, _ | ⟨key, _ | ⟨_, _⟩⟩⟩
    case cons.cons.nil =>
      have hl : (g list).ty = list.ty := (hg list (by simp [children])).1
      have hk : (g key).lambda? = key.lambda? := (hg key (by simp [children])).2.2
      intro hs p hp u hu
      exact he hs p (hk ▸ hp) u (hl ▸ hu)
    all_goals trivial
  | _ => trivial

theorem Renames.sameFront {f : Expr → Option Expr} {e : Expr} (he : e.Coherent)
    (hf : e.Renames f) : e.SameFront (e.swap f) := by
  induction e using partwise with
  | h e ih =>
    cases hr : f e with
    | some r =>
      rw [swap_some hr]
      exact (hf e (self_mem_subterms e) r hr).2
    | none =>
      rw [swap_none hr]
      exact sameFront_mapParts (he e (self_mem_subterms e)) fun c hc =>
        ih c hc (he.child hc) (hf.child hc)

theorem Coherent.subterm {e x : Expr} (h : e.Coherent) (hx : x ∈ e.subterms) : x.Coherent :=
  fun _ hy => h _ (subterms_trans hx hy)

theorem Renames.subterm {f : Expr → Option Expr} {e x : Expr} (h : e.Renames f)
    (hx : x ∈ e.subterms) : x.Renames f := fun _ hy => h _ (subterms_trans hx hy)

theorem Renames.ty_swap {f : Expr → Option Expr} {e : Expr} (he : e.Coherent)
    (hf : e.Renames f) : (e.swap f).ty = e.ty := (hf.sameFront he).1

theorem Renames.steady {f : Expr → Option Expr} {e : Expr} (he : e.Coherent)
    (hf : e.Renames f) : e.Steady f := by
  intro x hx _
  exact fits_mapParts (he x hx) fun c hc =>
    ((hf.subterm hx).child hc).sameFront ((he.subterm hx).child hc)

theorem Renames.coherent_swap {f : Expr → Option Expr} {e : Expr} (he : e.Coherent)
    (hf : e.Renames f) : (e.swap f).Coherent := by
  refine Coherent.swap (hf.steady he) fun x hx r hr => ?_
  obtain ⟨⟨p, rfl⟩, -⟩ := hf x hx r hr
  simp [Coherent, subterms, Fits]

/-- Replacement by parameters is a swap. -/
theorem Renames.replaceAll_eq {pairs : List (Expr × Expr)} {e : Expr} (he : e.Coherent)
    (hf : e.Renames (Rule.pick pairs)) :
    e.replaceAll pairs = pure (e.swap (Rule.pick pairs)) :=
  Expr.replaceAll_eq he (hf.steady he)

end Expr

end FieldPlan
