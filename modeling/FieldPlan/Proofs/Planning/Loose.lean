import FieldPlan.Proofs.Expr.Loose
import FieldPlan.Proofs.Planning.Meaning

/-!
# What renderings leave free

* `Param.Given` : parameters for a record of arguments or for a service;
* `Renders.loose` : a rendering leaves free only such parameters and what its context leaves free;
* `rewrapped_loose` : with a parameter in place of the context, only that one besides.
-/

namespace FieldPlan

/-- The parameter stands for a record of arguments or for a service. -/
def Param.Given (p : Param) : Prop := p.ty = Ty.json.nonNull ∨ ∃ name, p.ty = .service name false

variable {config : SchemaConfig} {final : PlanState} {K : Expr → Prop} {p : Param}

namespace Expr

variable {C e : Expr} {Record : Param → Prop}

theorem Chain.loose {path : List String} (h : C.Chain path e) (hp : Loose K p e) : Loose K p C := by
  induction h with
  | nil => exact hp
  | snoc name t _ _ ih =>
    obtain ⟨c, hc, hp⟩ := hp.of_child rfl
    cases List.mem_singleton.mp hc
    exact ih hp

theorem Own.loose {source : Resolve} (h : Own Record C source e) (hR : ∀ q, Record q → q.Given)
    (hp : Loose K p e) : p.Given ∨ Loose K p C := by
  cases h with
  | member h => exact .inr (h.loose hp)
  | service name method t h =>
    obtain ⟨c, hc, hp⟩ := hp.of_child rfl
    rcases List.mem_cons.mp hc with rfl | hc
    · obtain ⟨_, hc, -⟩ := hp.of_child rfl
      cases hc
    · obtain ⟨a, -, h⟩ := exists_of_forall₂ h hc
      cases h with
      | member h => exact .inr (h.loose hp)
      | argument n hq =>
        obtain ⟨c, hc, hp⟩ := hp.of_child rfl
        cases List.mem_singleton.mp hc
        cases loose_param hp
        exact .inl (hR _ hq)
      | constant v t =>
        obtain ⟨_, hc, -⟩ := hp.of_child rfl
        cases hc
  | constant v t =>
    obtain ⟨_, hc, -⟩ := hp.of_child rfl
    cases hc

theorem Loose.lambda {x : Param} {b : Expr} (h : Loose K p (.lambda x b)) :
    x.id ≠ p.id ∧ Loose K p b := by
  cases h with
  | part _ hx hq h =>
    cases List.mem_singleton.mp hx
    exact ⟨hq x (List.mem_singleton.mpr rfl), h⟩

theorem Loose.select {x : Param} {s b : Expr} (h : Loose K p (.select s x b)) :
    Loose K p s ∨ x.id ≠ p.id ∧ Loose K p b := by
  cases h with
  | part _ hx hq h =>
    rcases List.mem_cons.mp hx with rfl | hx
    · exact .inl h
    · cases List.mem_singleton.mp hx
      exact .inr ⟨hq x (List.mem_singleton.mpr rfl), h⟩

theorem Loose.letIn {x : Param} {v b : Expr} (h : Loose K p (.letIn x v b)) :
    Loose K p v ∨ x.id ≠ p.id ∧ Loose K p b := by
  cases h with
  | part _ hx hq h =>
    rcases List.mem_cons.mp hx with rfl | hx
    · exact .inl h
    · cases List.mem_singleton.mp hx
      exact .inr ⟨hq x (List.mem_singleton.mpr rfl), h⟩

theorem Loose.nullGuarded {guard build : Expr} (h : Loose K p (.nullGuarded guard build)) :
    Loose K p guard ∨ Loose K p build := by
  have leaf : ∀ t, ¬Loose K p (nullOf t) := fun t h => by
    obtain ⟨_, hc, -⟩ := h.of_child rfl
    cases hc
  obtain ⟨c, hc, hp⟩ := h.of_child rfl
  simp only [Expr.nullGuarded, children, List.mem_cons, List.not_mem_nil, or_false] at hc
  rcases hc with rfl | rfl | rfl
  · obtain ⟨c, hc, hpc⟩ := hp.of_child rfl
    simp only [isNull, children, List.mem_cons, List.not_mem_nil, or_false] at hc
    rcases hc with rfl | rfl
    · exact .inl hpc
    · exact absurd hpc (leaf _)
  · exact absurd hp (leaf _)
  · exact .inr hp

theorem Loose.record {name : String} {fields : List (String × Expr)}
    (h : Loose K p (.record name fields)) : ∃ field ∈ fields, Loose K p field.2 := by
  obtain ⟨c, hc, h⟩ := h.of_child rfl
  obtain ⟨field, hf, rfl⟩ := List.mem_map.mp hc
  exact ⟨field, hf, h⟩

theorem KeyOwn.loose {x : Param} {source : Resolve} {key : Expr} (h : KeyOwn x source key)
    (hp : Loose K p key) : p = x := by
  cases h with
  | member h => exact loose_param (h.loose hp)
  | constant v t =>
    obtain ⟨_, hc, -⟩ := hp.of_child rfl
    cases hc

theorem Sorted.loose {entity : String} {element : Ty} {first : Bool}
    {order : List (String × Direction)} {base sorted : Expr}
    (h : Sorted config entity element first order base sorted) (hp : Loose K p sorted) :
    Loose K p base := by
  induction h with
  | nil => exact hp
  | cons _ _ hkey _ ih =>
    obtain ⟨c, hc, h⟩ := (ih hp).of_child rfl
    simp only [children, List.mem_cons, List.not_mem_nil, or_false] at hc
    rcases hc with rfl | rfl
    · exact h
    · obtain ⟨hne, h⟩ := h.lambda
      exact absurd (congrArg Param.id (hkey.loose h)) hne.symm

end Expr

open Expr

open Extension.Paging (addSkip addTake countExpr)

theorem loose_slice {list : Expr} {f : Builtin} {n : Nat}
    (h : Loose K p (.builtin f [list, countExpr n])) : Loose K p list := by
  obtain ⟨c, hc, hp⟩ := h.of_child rfl
  simp only [children, List.mem_cons, List.not_mem_nil, or_false] at hc
  rcases hc with rfl | rfl
  · exact hp
  · obtain ⟨_, hc, -⟩ := hp.of_child rfl
    cases hc

theorem loose_slices {list : Expr} {skip take : Option Nat}
    (h : Loose K p (addTake (addSkip list skip) take)) : Loose K p list := by
  have taken : Loose K p (addSkip list skip) := by
    match take with
    | none => exact h
    | some n => exact loose_slice h
  match skip with
  | none | some 0 => exact taken
  | some (n + 1) => exact loose_slice taken

theorem Arranges.loose {base e : Expr} {a : Arrangement} (h : Arranges config base a e)
    (hp : Loose K p e) : Loose K p base := by
  cases h with
  | plain _ => exact loose_slices hp
  | sorted _ _ _ hs => exact hs.loose (loose_slices hp)

variable {C e : Expr}

theorem Reads.loose_own {base : Expr} {item : Item} (h : Reads config final C item base e)
    (hp : Loose K p base) : p.Given ∨ Loose K p C :=
  h.own.loose (fun _ hq => .inl hq.2) hp

theorem Reads.loose {base : Expr} {item : Item} (h : Reads config final C item base e)
    (hp : Loose K p e) : p.Given ∨ Loose K p C := by
  obtain ⟨a, -, harr⟩ := h.arranged
  exact h.loose_own (harr.loose hp)

theorem PlanState.loose_bound (good : final.Good) (hp : Loose K p (final.bound e)) :
    p.Given ∨ Loose (fun x => (final.handle x).isSome = true ∨ K (x.swap final.handle)) p e := by
  have params : ∀ x r, final.handle x = some r → ∃ q, r = .param q ∧ q.Given := by
    intro x r hr
    cases x with
    | service name =>
      simp only [handle, Option.map_eq_some_iff] at hr
      obtain ⟨q, hq, rfl⟩ := hr
      exact ⟨q, rfl, .inr ⟨name, (good.params name q hq).2⟩⟩
    | _ => cases hr
  refine (loose_swap (fun x r hr => (params x r hr).imp fun _ h => h.1) hp).imp_left ?_
  rintro ⟨x, -, hx⟩
  obtain ⟨q, hq, given⟩ := params x _ hx
  cases hq
  exact given

theorem Reads.loose_bound {base : Expr} {item : Item} (good : final.Good)
    (h : Reads config final C item base e) (hp : Loose K p (final.bound e)) :
    p.Given ∨ Loose K p (final.bound C) := by
  rcases PlanState.loose_bound good hp with h' | hp
  · exact .inl h'
  · exact (h.loose hp).imp_right swap_loose

theorem loose_guardIf {needed : Bool} {guard build : Expr}
    (h : Loose K p (guardIf needed guard build)) : Loose K p guard ∨ Loose K p build := by
  unfold guardIf at h
  split at h
  · exact h.nullGuarded
  · exact .inr h

/-- With a parameter in place of a base expression, a field leaves it free and what it left free
outside of the base expression. -/
theorem loose_rewrap {q : Param} {field : Expr} (hp : Loose K p (field.swap (rewrap final e q))) :
    p = q ∨ Loose (fun x => (rewrap final e q x).isSome = true ∨ K (x.swap (rewrap final e q))) p
      field := by
  refine (loose_swap (fun x r hr => ⟨q, (rewrap_some hr).1⟩) hp).imp_left ?_
  rintro ⟨x, -, hx⟩
  cases (rewrap_some hx).1
  rfl

theorem rewrap_self (q : Param) :
    (rewrap final e q e).isSome = true ∧ (rewrap final e q (final.bound e)).isSome = true := by
  unfold rewrap
  constructor
  · rw [pick_cons, if_pos (eqv_refl e)]
    rfl
  · rw [pick_cons, pick_cons, if_pos (eqv_refl (final.bound e))]
    split <;> rfl

/-- The fields with a parameter in place of a base expression leave it free, and nothing of the base
expression. -/
theorem loose_rewrapped {q : Param} {fields : List (String × Expr)}
    (h : ∀ field ∈ fields, ∀ {K : Expr → Prop}, Loose K p field.2 →
      p.Given ∨ Loose K p e ∨ Loose K p (final.bound e)) {field : String × Expr}
    (hf : field ∈ rewrapped final e q fields) (hp : Loose K p field.2) : p = q ∨ p.Given := by
  obtain ⟨before, hmem, rfl⟩ := List.mem_map.mp hf
  rcases loose_rewrap hp with rfl | hp
  · exact .inl rfl
  · obtain ⟨he, hb⟩ : (rewrap final e q e).isSome = true ∧
        (rewrap final e q (final.bound e)).isSome = true := rewrap_self q
    rcases h before hmem hp with given | hp | hp
    · exact .inr given
    · exact absurd (.inl he) hp.not_hidden
    · exact absurd (.inl hb) hp.not_hidden

mutual

/-- A rendering leaves free only what its context leaves free, bound or not. -/
theorem Renders.loose (good : final.Good) {C e : Expr} {w : Wanted} (h : Renders config final C w e)
    {K : Expr → Prop} (hp : Loose K p e) :
    p.Given ∨ Loose K p C ∨ Loose K p (final.bound C) := by
  match h with
  | .leaf reads => exact (reads.loose_bound good hp).imp_right .inr
  | @Renders.plain _ _ _ base e item children fields reads hs all hn =>
    have own : ∀ {K : Expr → Prop}, Loose K p e → p.Given ∨ Loose K p C ∨ Loose K p (final.bound C) :=
      fun hp => (reads.loose hp).imp_right .inl
    rcases loose_guardIf hp with hp | hp
    · exact own hp
    · obtain ⟨field, hf, hp⟩ := hp.record
      rcases all.loose good hf hp with given | hp | hp
      · exact .inl given
      · exact own hp
      · rw [PlanState.bound_of_not_served reads.coherent hs] at hp
        exact own hp
  | @Renders.wrapped _ _ _ base e item children fields q reads hs hcall all hn hty hpb hpf hbf =>
    rcases hp.letIn with hp | ⟨hne, hp⟩
    · exact (reads.loose_bound good hp).imp_right .inr
    · have fresh : p ≠ q := fun h => hne (h ▸ rfl)
      rcases hp.nullGuarded with hp | hp
      · exact absurd (loose_param hp) fresh
      · obtain ⟨field, hf, hp⟩ := hp.record
        rcases loose_rewrapped (fun field hf {K} hp => all.loose good hf hp) hf hp with rfl | given
        · exact absurd rfl fresh
        · exact .inl given
  | @Renders.items _ _ _ base e item children fields x reads hs hel all hn hx =>
    rcases loose_guardIf hp with hp | hp
    · exact (reads.loose_own hp).imp_right .inl
    · rcases hp.select with hp | ⟨hne, hp⟩
      · exact (reads.loose hp).imp_right .inl
      · obtain ⟨field, hf, hp⟩ := hp.record
        rcases all.loose good hf hp with given | hp | hp
        · exact .inl given
        · exact absurd (loose_param hp) fun h => hne (h ▸ rfl)
        · rw [PlanState.bound_of_not_served (coherent_param x) (not_served_param x)] at hp
          exact absurd (loose_param hp) fun h => hne (h ▸ rfl)
  | @Renders.fetched _ _ _ base e item children fields x q reads hs hel all hn hx hty hq =>
    have body : x.id ≠ p.id → Loose K p (.record item.name fields) → p.Given := fun hne hp => by
      obtain ⟨field, hf, hp⟩ := hp.record
      rcases all.loose good hf hp with given | hp | hp
      · exact given
      · exact absurd (loose_param hp) fun h => hne (h ▸ rfl)
      · rw [PlanState.bound_of_not_served (coherent_param x) (not_served_param x)] at hp
        exact absurd (loose_param hp) fun h => hne (h ▸ rfl)
    split at hp
    · rcases hp.letIn with hp | ⟨hne, hp⟩
      · exact (reads.loose_bound good hp).imp_right .inr
      · have fresh : p ≠ q := fun h => hne (h ▸ rfl)
        rcases hp.nullGuarded with hp | hp
        · exact absurd (loose_param hp) fresh
        · rcases hp.select with hp | ⟨hne, hp⟩
          · exact absurd (loose_param hp) fresh
          · exact .inl (body hne hp)
    · rcases hp.select with hp | ⟨hne, hp⟩
      · exact (reads.loose_bound good hp).imp_right .inr
      · exact .inl (body hne hp)

theorem RendersAll.loose (good : final.Good) {C : Expr} {ws : List Wanted} {fields : List (String × Expr)}
    (h : RendersAll config final C ws fields) {field : String × Expr} (hf : field ∈ fields)
    {K : Expr → Prop} (hp : Loose K p field.2) :
    p.Given ∨ Loose K p C ∨ Loose K p (final.bound C) := by
  match h with
  | .cons hw hall =>
    rcases List.mem_cons.mp hf with rfl | hf
    · exact hw.loose good hp
    · exact hall.loose good hf hp

end

end FieldPlan
