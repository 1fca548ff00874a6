import FieldPlan.Proofs.Expr.Swap

/-!
# Free parameters

* `Expr.Loose` : a parameter occurs free outside of parts that are hidden;
* `Expr.loose_swap`, `Expr.swap_loose` : what a swap by parameters leaves free;
* `Expr.replaceParamsByType_eq` : replacing the parameters of a shape changes nothing when no other
  parameter of the shape is free.
-/

namespace FieldPlan

namespace Expr

variable {K K' : Expr → Prop} {p : Param} {f : Expr → Option Expr} {e : Expr}

/-- The parameter occurs free outside the parts in `K`. -/
inductive Loose (K : Expr → Prop) (p : Param) : Expr → Prop
  | here : ¬K (.param p) → Loose K p (.param p)
  | part {e : Expr} {x : List Param × Expr} : ¬K e → x ∈ e.parts [] → (∀ q ∈ x.1, q.id ≠ p.id) →
    Loose K p x.2 → Loose K p e

theorem Loose.not_hidden (h : Loose K p e) : ¬K e := by
  cases h <;> assumption

theorem loose_param {q : Param} (h : Loose K p (.param q)) : p = q := by
  cases h with
  | here => rfl
  | part _ hx => cases hx

/-- Free in an expression that binds nothing itself, a parameter is free in a direct part. -/
theorem Loose.of_child (h : Loose K p e) (he : e.own? = none) : ∃ c ∈ e.children, Loose K p c := by
  cases h with
  | here => cases he
  | part _ hx _ h => exact ⟨_, mem_children_of_parts hx, h⟩

theorem parts_mapParts (g : Expr → Expr) (e : Expr) (bound : List Param) :
    (e.mapParts g).parts bound = (e.parts bound).map fun x => (x.1, g x.2) := by
  cases e <;> simp [mapParts, parts, children]

theorem mem_parts {bound : List Param} {x : List Param × Expr} (h : x ∈ e.parts bound) :
    ∃ around, x.1 = around ++ bound ∧ (around, x.2) ∈ e.parts [] := by
  cases e with
  | lambda q b =>
    cases List.mem_singleton.mp h
    exact ⟨[q], rfl, List.mem_singleton.mpr rfl⟩
  | select s q b =>
    rcases List.mem_cons.mp h with rfl | h
    · exact ⟨[], rfl, List.mem_cons_self⟩
    · cases List.mem_singleton.mp h
      exact ⟨[q], rfl, List.mem_cons_of_mem _ (List.mem_singleton.mpr rfl)⟩
  | letIn q v b =>
    rcases List.mem_cons.mp h with rfl | h
    · exact ⟨[], rfl, List.mem_cons_self⟩
    · cases List.mem_singleton.mp h
      exact ⟨[q], rfl, List.mem_cons_of_mem _ (List.mem_singleton.mpr rfl)⟩
  | _ =>
    obtain ⟨c, hc, rfl⟩ := List.mem_map.mp h
    exact ⟨[], rfl, List.mem_map.mpr ⟨c, hc, rfl⟩⟩

/-- What a swap leaves free is a parameter put in, or was free outside of what was replaced. -/
theorem loose_swap (hf : ∀ x r, f x = some r → ∃ q, r = .param q) (h : Loose K p (e.swap f)) :
    (∃ x ∈ e.subterms, f x = some (.param p)) ∨
      Loose (fun x => (f x).isSome = true ∨ K (x.swap f)) p e := by
  induction e using partwise with
  | h e ih =>
    cases hr : f e with
    | some r =>
      obtain ⟨q, rfl⟩ := hf e r hr
      rw [swap_some hr] at h
      cases loose_param h
      exact .inl ⟨e, self_mem_subterms e, hr⟩
    | none =>
      have shown : ¬((f e).isSome = true ∨ K (e.swap f)) := by
        simp [hr, h.not_hidden]
      rw [swap_none hr] at h
      generalize hm : e.mapParts (swap f) = e' at h
      cases h with
      | here =>
        cases e <;> cases hm
        exact .inr (.here shown)
      | @part _ x _ hx hq hl =>
        subst hm
        rw [parts_mapParts] at hx
        obtain ⟨y, hy, rfl⟩ := List.mem_map.mp hx
        have hc := mem_children_of_parts hy
        rcases ih y.2 hc hl with ⟨z, hz, hz'⟩ | hl
        · exact .inl ⟨z, mem_subterms_of_child hc hz, hz'⟩
        · exact .inr (.part shown hy hq hl)

/-- What is free outside of what a swap replaces stays free. -/
theorem swap_loose (h : Loose (fun x => (f x).isSome = true ∨ K (x.swap f)) p e) :
    Loose K p (e.swap f) := by
  induction h with
  | here h =>
    simp only [not_or, Bool.not_eq_true, Option.isSome_eq_false_iff, Option.isNone_iff_eq_none] at h
    have same : (Expr.param p).swap f = .param p := swap_leaf rfl h.1
    rw [same] at h ⊢
    exact .here h.2
  | @part e x h hx hq _ ih =>
    simp only [not_or, Bool.not_eq_true, Option.isSome_eq_false_iff, Option.isNone_iff_eq_none] at h
    rw [swap_none h.1] at h ⊢
    refine .part (x := (x.1, x.2.swap f)) h.2 ?_ hq ih
    rw [parts_mapParts]
    exact List.mem_map.mpr ⟨x, hx, rfl⟩

/-- Replacing the parameters of a shape changes nothing when no other parameter of the shape is free.
-/
theorem replaceParamsByType_eq {t : Ty} {q : Param} (he : e.Coherent)
    (h : ∀ p, Loose (fun _ => False) p e → p.id = q.id ∨ p.ty.sameShape t = false) :
    e.replaceParamsByType t (.param q) = pure e := by
  have follows : (Rule.paramsByType t (.param q)).Follows (fun _ => none) fun bound e =>
      ∀ p, Loose (fun _ => False) p e →
        (p.id = q.id ∨ p.ty.sameShape t = false) ∨ ∃ b ∈ bound, b.id = p.id := by
    refine ⟨fun bound e hP => ?_, fun _ _ _ _ => rfl, fun bound e hP _ x hx p hp => ?_⟩
    · cases e with
      | param p =>
        simp only [Rule.paramsByType]
        rw [if_neg]
        rcases hP p (.here id) with (h | h) | ⟨b, hb, h⟩
        · simp [BEq.beq, eqv, h]
        · simp [h]
        · simp only [Bool.and_eq_true, not_and, Bool.not_eq_true', Bool.not_eq_false, List.any_eq_true]
          exact fun _ => ⟨b, hb, by simp [h]⟩
      | _ => rfl
    · obtain ⟨around, hx1, hmem⟩ := mem_parts hx
      rw [hx1]
      by_cases hq : ∃ b ∈ around, b.id = p.id
      · obtain ⟨b, hb, h⟩ := hq
        exact .inr ⟨b, List.mem_append_left _ hb, h⟩
      · refine (hP p (.part id hmem (fun b hb h => hq ⟨b, hb, h⟩) hp)).imp_right ?_
        rintro ⟨b, hb, h⟩
        exact ⟨b, List.mem_append_right _ hb, h⟩
  have steady : e.Steady fun _ => none := by
    intro x hx _
    have same : x.mapParts (swap fun _ => none) = x := mapParts_self (he x hx) fun c hc =>
      swap_self (he.subterm (subterms_trans hx (mem_subterms_of_child hc (self_mem_subterms c))))
        fun _ _ => rfl
    rw [same]
    exact he x hx
  obtain ⟨hit, run⟩ := replaceBy_eq follows steady fun p hp => .inl (h p hp)
  unfold replaceParamsByType
  rw [run, swap_self he fun _ _ => rfl]
  rfl

end Expr

end FieldPlan
