import FieldPlan.Proofs.Expr.Swap
import FieldPlan.Proofs.Expr.Value

/-!
# Values of swapped expressions

* `Expr.Translates` : what a swap replaces has the value of its replacement, in scopes related by
  a relation that the binders of the expression keep;
* `Expr.Translates.value_swap` : then the values before and after the swap agree;
* `Expr.value_congr` : a value depends on the parameters that occur alone.
-/

namespace FieldPlan

namespace Expr

variable {answers : Answers} {f : Expr → Option Expr} {R : Scope → Scope → Prop} {ρ ρ' : Scope}

/-- In scopes related by `R`, swapping by `f` in parts of `e` keeps values. -/
structure Translates (answers : Answers) (f : Expr → Option Expr) (R : Scope → Scope → Prop)
    (e : Expr) : Prop where
  bind : ∀ ρ ρ', R ρ ρ' → ∀ x ∈ e.subterms, ∀ p, x.bound? = some p → ∀ v,
    R (ρ.bind p v) (ρ'.bind p v)
  param : ∀ ρ ρ', R ρ ρ' → ∀ p, .param p ∈ e.subterms → f (.param p) = none → ρ' p.id = ρ p.id
  answer : ∀ ρ ρ', R ρ ρ' → ∀ x ∈ e.subterms, ∀ r, f x = some r →
    (∀ keys, r.valueUnder answers ρ' keys = x.valueUnder answers ρ keys) ∧
      ρ'.receiver r = ρ.receiver x
  key : ∀ x ∈ e.subterms, ∀ r, f x = some r → x.lambda? = none ∧ r.lambda? = none

namespace Translates

theorem subterm {e x : Expr} (h : e.Translates answers f R) (hx : x ∈ e.subterms) :
    x.Translates answers f R where
  bind ρ ρ' hR y hy := h.bind ρ ρ' hR y (subterms_trans hx hy)
  param ρ ρ' hR p hp := h.param ρ ρ' hR p (subterms_trans hx hp)
  answer ρ ρ' hR y hy := h.answer ρ ρ' hR y (subterms_trans hx hy)
  key y hy := h.key y (subterms_trans hx hy)

theorem child {e c : Expr} (h : e.Translates answers f R) (hc : c ∈ e.children) :
    c.Translates answers f R :=
  h.subterm (mem_subterms_of_child hc (self_mem_subterms c))

end Translates

theorem keyValue_of_lambda_none {e : Expr} (h : e.lambda? = none) (ρ : Scope) (item : Json) :
    e.keyValue answers ρ item = none := by
  cases e <;> first | rfl | cases h

theorem valueList_map {es : List Expr} {g : Expr → Expr}
    (h : ∀ e ∈ es, (g e).valueUnder answers ρ' [] = e.valueUnder answers ρ []) :
    valueList answers (es.map g) ρ' = valueList answers es ρ := by
  induction es with
  | nil => rfl
  | cons e es ih =>
    simp only [List.mem_cons, forall_eq_or_imp] at h
    simp [valueList, h.1, ih h.2]

theorem valueFields_map {fields : List (String × Expr)} {g : Expr → Expr}
    (h : ∀ e ∈ fields.map (·.2), (g e).valueUnder answers ρ' [] = e.valueUnder answers ρ []) :
    valueFields answers (fields.map fun field => (field.1, g field.2)) ρ' =
      valueFields answers fields ρ := by
  induction fields with
  | nil => rfl
  | cons field fields ih =>
    simp only [List.map_cons, List.mem_cons, forall_eq_or_imp] at h
    simp [valueFields, h.1, ih h.2]

theorem valueUnder_builtin_map {args : List Expr} {g : Expr → Expr} (function : Builtin)
    (hv : ∀ c ∈ args, ∀ keys, (g c).valueUnder answers ρ' keys = c.valueUnder answers ρ keys)
    (hk : ∀ c ∈ args, ∀ item, (g c).keyValue answers ρ' item = c.keyValue answers ρ item)
    (keys : List ItemKey) :
    (Expr.builtin function (args.map g)).valueUnder answers ρ' keys =
      (Expr.builtin function args).valueUnder answers ρ keys := by
  match function, args with
  | .thenBy _, [] | .thenBy _, [_] | .orderBy _, [] | .orderBy _, [_] => rfl
  | .count, [] | .skip, [] | .take, [] => rfl
  | .thenBy d, list :: key :: _ =>
    have same : (g key).keyValue answers ρ' = key.keyValue answers ρ := funext (hk key (by simp))
    simp only [List.map_cons, valueUnder, same, hv list (by simp)]
  | .orderBy d, list :: key :: _ =>
    have same : (g key).keyValue answers ρ' = key.keyValue answers ρ := funext (hk key (by simp))
    simp only [List.map_cons, valueUnder, same, hv list (by simp)]
  | .count, list :: _ => simp only [List.map_cons, valueUnder, hv list (by simp)]
  | .skip, [list] | .take, [list] =>
    simp only [List.map_cons, List.map_nil, valueUnder, valueHead, hv list (by simp)]
  | .skip, list :: count :: _ | .take, list :: count :: _ =>
    simp only [List.map_cons, valueUnder, valueHead, hv list (by simp), hv count (by simp)]

theorem receiver_mapParts {e : Expr} {g : Expr → Expr}
    (h : ∀ p, e = .param p → ρ' p.id = ρ p.id) : ρ'.receiver (e.mapParts g) = ρ.receiver e := by
  cases e with
  | param p => simp [mapParts, Scope.receiver, h p rfl]
  | _ => rfl

namespace Translates

theorem receiver_swap {e : Expr} (h : e.Translates answers f R) (hR : R ρ ρ') :
    ρ'.receiver (e.swap f) = ρ.receiver e := by
  cases hr : f e with
  | some r =>
    rw [swap_some hr]
    exact (h.answer ρ ρ' hR e (self_mem_subterms e) r hr).2
  | none =>
    rw [swap_none hr]
    refine receiver_mapParts fun p hp => ?_
    subst hp
    exact h.param ρ ρ' hR p (self_mem_subterms _) hr

/-- A swap keeps the value of an expression and of a sort key. -/
theorem valueUnder_swap {e : Expr} (h : e.Translates answers f R) (hR : R ρ ρ') :
    (∀ keys, (e.swap f).valueUnder answers ρ' keys = e.valueUnder answers ρ keys) ∧
      ∀ item, (e.swap f).keyValue answers ρ' item = e.keyValue answers ρ item := by
  induction e using partwise generalizing ρ ρ' with
  | h e ih =>
    cases hr : f e with
    | some r =>
      obtain ⟨he, hk⟩ := h.key e (self_mem_subterms e) r hr
      rw [swap_some hr]
      refine ⟨(h.answer ρ ρ' hR e (self_mem_subterms e) r hr).1, fun item => ?_⟩
      rw [keyValue_of_lambda_none hk, keyValue_of_lambda_none he]
    | none =>
      have part : ∀ c ∈ e.children, ∀ keys,
          (c.swap f).valueUnder answers ρ' keys = c.valueUnder answers ρ keys :=
        fun c hc => (ih c hc (h.child hc) hR).1
      have under : ∀ c ∈ e.children, ∀ p, e.bound? = some p → ∀ v,
          (c.swap f).valueUnder answers (ρ'.bind p v) [] =
            c.valueUnder answers (ρ.bind p v) [] := fun c hc p hp v =>
        (ih c hc (h.child hc) (h.bind ρ ρ' hR e (self_mem_subterms e) p hp v)).1 []
      rw [swap_none hr]
      cases e with
      | param p =>
        have same : ρ'.value p = ρ.value p := by
          unfold Scope.value
          rw [h.param ρ ρ' hR p (self_mem_subterms _) hr]
        exact ⟨fun keys => by simp only [mapParts, valueUnder, same], fun _ => rfl⟩
      | constant | null | service => exact ⟨fun _ => rfl, fun _ => rfl⟩
      | member t name ty =>
        exact ⟨fun keys => by simp only [mapParts, valueUnder, part t (by simp [children])],
          fun _ => rfl⟩
      | condition a b c =>
        exact ⟨fun keys => by simp only [mapParts, valueUnder, part a (by simp [children]),
          part b (by simp [children]), part c (by simp [children])], fun _ => rfl⟩
      | equal a b =>
        exact ⟨fun keys => by simp only [mapParts, valueUnder, part a (by simp [children]),
          part b (by simp [children])], fun _ => rfl⟩
      | builtin function args =>
        refine ⟨fun keys => ?_, fun _ => rfl⟩
        exact valueUnder_builtin_map function part (fun c hc => (ih c hc (h.child hc) hR).2) keys
      | invoke r m args ty =>
        have hr : ρ'.receiver (r.swap f) = ρ.receiver r :=
          receiver_swap (h.child (by simp [children])) hR
        have ha : valueList answers (args.map (swap f)) ρ' = valueList answers args ρ :=
          valueList_map fun c hc => part c (by simp [children, hc]) []
        exact ⟨fun keys => by simp only [mapParts, valueUnder, hr, ha], fun _ => rfl⟩
      | lambda p b =>
        exact ⟨fun _ => rfl, under b (by simp [children]) p rfl⟩
      | record name fields =>
        have hf : valueFields answers (fields.map fun field => (field.1, field.2.swap f)) ρ' =
            valueFields answers fields ρ := valueFields_map fun c hc => part c hc []
        exact ⟨fun keys => by simp only [mapParts, valueUnder, hf], fun _ => rfl⟩
      | select s p b =>
        exact ⟨fun keys => by simp only [mapParts, valueUnder, part s (by simp [children]),
          under b (by simp [children]) p rfl], fun _ => rfl⟩
      | letIn p v b =>
        exact ⟨fun keys => by simp only [mapParts, valueUnder, part v (by simp [children]),
          under b (by simp [children]) p rfl], fun _ => rfl⟩

theorem value_swap {e : Expr} (h : e.Translates answers f R) (hR : R ρ ρ') :
    (e.swap f).value answers ρ' = e.value answers ρ := (h.valueUnder_swap hR).1 []

end Translates

/-- A value depends on the parameters that occur alone. -/
theorem value_congr {e : Expr} (he : e.Coherent) (h : ∀ i ∈ e.ids, ρ' i = ρ i) :
    e.value answers ρ' = e.value answers ρ := by
  have same : e.Translates answers (fun _ => none) fun ρ ρ' => ∀ i ∈ e.ids, ρ' i = ρ i := by
    constructor
    · intro ρ ρ' hR x hx p hp v i hi
      unfold Scope.bind
      split
      · rfl
      · exact hR i hi
    · intro ρ ρ' hR p hp _
      exact hR p.id (mem_ids.mpr ⟨_, hp, p, rfl, rfl⟩)
    · intro _ _ _ _ _ _ h
      cases h
    · intro _ _ _ h
      cases h
  have h := same.value_swap h
  rwa [swap_self he fun _ _ => rfl] at h

end Expr

end FieldPlan
