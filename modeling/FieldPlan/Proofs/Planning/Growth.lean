import FieldPlan.Planning.State
import FieldPlan.Proofs.Expr.Served
import FieldPlan.Proofs.Expr.Swap
import FieldPlan.Proofs.Success

/-!
# What planning gathers

* `PlanState.Grows`, `PlanState.Good` : planning adds bindings of new parameters, and all bindings
  are of distinct parameters drawn before;
* `PlanState.bound` : an expression with the handles of services replaced by their parameters;
* `bindServices_ok` : what binding the services of an expression gives.
-/

namespace FieldPlan

/-! ## States -/

namespace PlanState

/-- A state that planning leads to from another one. -/
structure Grows (s s' : PlanState) : Prop where
  fresh : s.fresh ≤ s'.fresh
  bindings : ∃ added, s'.bindings = s.bindings ++ added ∧ ∀ b ∈ added, s.fresh ≤ b.1.id
  params : ∀ name p, s.serviceParams.find? name = some p → s'.serviceParams.find? name = some p

/-- The parameters that are bound are distinct and were drawn, and the ones that stand for services
are bound to them. -/
structure Good (s : PlanState) : Prop where
  below : ∀ b ∈ s.bindings, b.1.id < s.fresh
  nodup : (s.bindings.map (·.1.id)).Nodup
  params : ∀ name p, s.serviceParams.find? name = some p →
    (p, .service name) ∈ s.bindings ∧ p.ty = .service name false

theorem Grows.refl (s : PlanState) : s.Grows s := ⟨Nat.le_refl _, ⟨[], by simp⟩, fun _ _ h => h⟩

theorem Grows.trans {s t u : PlanState} (h : s.Grows t) (h' : t.Grows u) : s.Grows u := by
  obtain ⟨as, has, hlas⟩ := h.bindings
  obtain ⟨bs, hbs, hlbs⟩ := h'.bindings
  refine ⟨Nat.le_trans h.fresh h'.fresh, ⟨as ++ bs, by rw [hbs, has, List.append_assoc], ?_⟩,
    fun name p hp => h'.params name p (h.params name p hp)⟩
  intro b hb
  rcases List.mem_append.mp hb with hb | hb
  · exact hlas b hb
  · exact Nat.le_trans h.fresh (hlbs b hb)

theorem Grows.mem {s t : PlanState} (h : s.Grows t) {b : Param × Binding} (hb : b ∈ s.bindings) :
    b ∈ t.bindings := by
  obtain ⟨as, has, -⟩ := h.bindings
  rw [has]
  exact List.mem_append_left _ hb

def boundIds (s : PlanState) : List Nat := s.bindings.map (·.1.id)

theorem Grows.boundIds {s t : PlanState} (h : s.Grows t) {i : Nat} (hi : i < s.fresh) :
    i ∈ t.boundIds ↔ i ∈ s.boundIds := by
  obtain ⟨as, has, hlas⟩ := h.bindings
  unfold PlanState.boundIds
  rw [has, List.map_append, List.mem_append, or_iff_left]
  intro hm
  obtain ⟨b, hb, rfl⟩ := List.mem_map.mp hm
  exact absurd hi (Nat.not_lt.mpr (hlas b hb))

theorem Good.boundIds_lt {s : PlanState} (h : s.Good) {i : Nat} (hi : i ∈ s.boundIds) :
    i < s.fresh := by
  obtain ⟨b, hb, rfl⟩ := List.mem_map.mp hi
  exact h.below b hb

end PlanState

/-! ## Drawing -/

theorem draw_pure {α : Type} (a : α) : draw (pure a) = pure a := rfl

theorem draw_param_ok {name : String} {t : Ty} {s s' : PlanState} {p : Param} :
    draw (Fresh.param name t) s = .ok (p, s') ↔
      p = ⟨s.fresh, name, t⟩ ∧ s' = { s with fresh := s.fresh + 1 } := by
  show Except.ok (_, _) = Except.ok (p, s') ↔ _
  rw [Except.ok.injEq, Prod.mk.injEq]
  exact ⟨fun ⟨h, h'⟩ => ⟨h.symm, h'.symm⟩, fun ⟨h, h'⟩ => ⟨h.symm, h'.symm⟩⟩

namespace PlanState

def next (s : PlanState) : PlanState := { s with fresh := s.fresh + 1 }

theorem grows_next (s : PlanState) : s.Grows s.next :=
  ⟨Nat.le_succ _, ⟨[], by simp [next]⟩, fun _ _ h => h⟩

theorem Good.next {s : PlanState} (h : s.Good) : s.next.Good :=
  ⟨fun b hb => Nat.lt_succ_of_lt (h.below b hb), h.nodup, h.params⟩

/-- The state after a parameter was drawn and bound. -/
def bindNext (s : PlanState) (name : String) (t : Ty) (b : Binding) : PlanState :=
  { s.next with bindings := s.bindings ++ [(⟨s.fresh, name, t⟩, b)] }

theorem grows_bindNext (s : PlanState) (name : String) (t : Ty) (b : Binding) :
    s.Grows (s.bindNext name t b) :=
  ⟨Nat.le_succ _, ⟨[(⟨s.fresh, name, t⟩, b)], rfl, by simp⟩, fun _ _ h => h⟩

theorem Good.bindNext {s : PlanState} (h : s.Good) (name : String) (t : Ty) (b : Binding) :
    (s.bindNext name t b).Good := by
  refine ⟨?_, ?_, fun n p hp => ?_⟩
  · intro x hx
    rcases List.mem_append.mp hx with hx | hx
    · exact Nat.lt_succ_of_lt (h.below x hx)
    · obtain rfl := List.mem_singleton.mp hx
      exact Nat.lt_succ_self _
  · show ((s.bindings ++ [_]).map _).Nodup
    rw [List.map_append, List.nodup_append]
    refine ⟨h.nodup, by simp, fun i hi j hj => ?_⟩
    obtain rfl := List.mem_singleton.mp hj
    exact Nat.ne_of_lt (h.boundIds_lt hi)
  · obtain ⟨hb, ht⟩ := h.params n p hp
    exact ⟨List.mem_append_left _ hb, ht⟩

end PlanState

/-! ## Binding services -/

section Handles

variable {s s' : PlanState}

theorem serviceParam_ok {name : ServiceName} {p : Param} (good : s.Good)
    (h : serviceParam name s = .ok (p, s')) :
    s.Grows s' ∧ s'.Good ∧ s'.serviceParams.find? name = some p := by
  unfold serviceParam at h
  obtain ⟨t, s₁, hget, h⟩ := run_bind_ok.mp h
  cases hget
  cases hf : s.serviceParams.find? name with
  | some q =>
    rw [hf] at h
    obtain ⟨rfl, rfl⟩ := run_pure_ok.mp h
    exact ⟨.refl s, good, hf⟩
  | none =>
    rw [hf] at h
    obtain ⟨q, s₂, hdraw, h⟩ := run_bind_ok.mp h
    obtain ⟨rfl, rfl⟩ := draw_param_ok.mp hdraw
    cases h
    have grows := s.grows_bindNext name (.service name false) (.service name)
    have good' := good.bindNext name (.service name false) (.service name)
    refine ⟨⟨grows.fresh, grows.bindings, fun n q hq => ?_⟩,
      ⟨good'.below, good'.nodup, fun n q hq => ?_⟩, ?_⟩
    · show Dict.find? (Dict.insert _ _ _) n = some q
      rw [Dict.find?_insert, if_neg fun he => by simp [← he, hf] at hq]
      exact hq
    · replace hq : Dict.find? (Dict.insert _ _ _) n = some q := hq
      rw [Dict.find?_insert] at hq
      split at hq
      · rename_i he
        subst he
        cases hq
        exact ⟨List.mem_append_right _ (List.mem_singleton.mpr rfl), rfl⟩
      · exact good'.params n q hq
    · show Dict.find? (Dict.insert _ _ _) name = _
      rw [Dict.find?_insert, if_pos rfl]

namespace PlanState

/-- The parameter of a handle. -/
def handle (s : PlanState) : Expr → Option Expr
  | .service name => (s.serviceParams.find? name).map .param
  | _ => none

/-- An expression with the parameters of its handles in place of them. -/
def bound (s : PlanState) (e : Expr) : Expr := e.swap s.handle

/-- The services of an expression have parameters. -/
def Covers (s : PlanState) (e : Expr) : Prop :=
  ∀ name, .service name ∈ e.subterms → ∃ p, s.serviceParams.find? name = some p

theorem Grows.covers {e : Expr} (h : s.Grows s') (hc : s.Covers e) : s'.Covers e := by
  intro name hn
  obtain ⟨p, hp⟩ := hc name hn
  exact ⟨p, h.params name p hp⟩

theorem Grows.bound {e : Expr} (h : s.Grows s') (hc : s.Covers e) : s'.bound e = s.bound e := by
  refine Expr.swap_congr fun x hx => ?_
  cases x with
  | service name =>
    obtain ⟨p, hp⟩ := hc name hx
    simp only [handle, hp, h.params name p hp]
  | _ => rfl

theorem bound_of_not_served {e : Expr} (he : e.Coherent) (h : ¬e.Served) : s.bound e = e := by
  refine Expr.swap_self he fun x hx => ?_
  cases x with
  | service name => exact absurd ⟨name, hx⟩ h
  | _ => rfl

theorem covers_of_not_served {e : Expr} (h : ¬e.Served) : s.Covers e :=
  fun name hn => absurd ⟨name, hn⟩ h

theorem Good.renames {e : Expr} (h : s.Good) : e.Renames s.handle := by
  intro x _ r hr
  cases x with
  | service name =>
    simp only [handle, Option.map_eq_some_iff] at hr
    obtain ⟨p, hp, rfl⟩ := hr
    exact ⟨⟨p, rfl⟩, (h.params name p hp).2, rfl, rfl⟩
  | _ => cases hr

end PlanState

/-- The pairs of handles and their parameters. -/
theorem handlePairs_ok {names : List ServiceName} {pairs : List (Expr × Expr)} (good : s.Good)
    (h : (names.mapM fun name => do
      let p ← serviceParam name
      pure (Expr.service name, Expr.param p)) s = .ok (pairs, s')) :
    s.Grows s' ∧ s'.Good ∧
      List.Forall₂ (fun name pair => ∃ p, pair = (Expr.service name, Expr.param p) ∧
        s'.serviceParams.find? name = some p) names pairs := by
  induction names generalizing s pairs with
  | nil =>
    obtain ⟨rfl, rfl⟩ := run_pure_ok.mp h
    exact ⟨.refl s, good, .nil⟩
  | cons name names ih =>
    rw [List.mapM_cons] at h
    obtain ⟨pair, s₁, hpair, h⟩ := run_bind_ok.mp h
    obtain ⟨rest, s₂, hr, h⟩ := run_bind_ok.mp h
    obtain ⟨rfl, rfl⟩ := run_pure_ok.mp h
    obtain ⟨p, t, hp, hpair⟩ := run_bind_ok.mp hpair
    obtain ⟨rfl, rfl⟩ := run_pure_ok.mp hpair
    obtain ⟨grows₁, good₁, hfound⟩ := serviceParam_ok good hp
    obtain ⟨grows₂, good₂, hall⟩ := ih good₁ hr
    exact ⟨grows₁.trans grows₂, good₂, .cons ⟨p, rfl, grows₂.params name p hfound⟩ hall⟩

theorem exists_param_of_handlePairs {names : List ServiceName} {pairs : List (Expr × Expr)}
    (h : List.Forall₂ (fun name pair => ∃ p, pair = (Expr.service name, Expr.param p) ∧
      s.serviceParams.find? name = some p) names pairs) {name : ServiceName} (hn : name ∈ names) :
    ∃ p, s.serviceParams.find? name = some p := by
  induction h with
  | nil => cases hn
  | cons hpair _ ih =>
    rcases List.mem_cons.mp hn with rfl | hn
    · obtain ⟨p, -, hp⟩ := hpair
      exact ⟨p, hp⟩
    · exact ih hn

theorem pick_handlePairs {names : List ServiceName} {pairs : List (Expr × Expr)}
    (h : List.Forall₂ (fun name pair => ∃ p, pair = (Expr.service name, Expr.param p) ∧
      s.serviceParams.find? name = some p) names pairs) {x : Expr}
    (hx : ∀ name, x = .service name → name ∈ names) : Rule.pick pairs x = s.handle x := by
  induction h with
  | nil =>
    cases x with
    | service name => exact absurd (hx name rfl) List.not_mem_nil
    | _ => rfl
  | @cons n pair names pairs hpair _ ih =>
    obtain ⟨p, rfl, hp⟩ := hpair
    by_cases he : x = .service n
    · subst he
      simp [Rule.pick, PlanState.handle, hp, BEq.beq, Expr.eqv]
    · have hne : (Expr.service n == x) = false := by
        cases x <;> simp_all [BEq.beq, Expr.eqv, eq_comm]
      have skip : Rule.pick ((.service n, .param p) :: pairs) x = Rule.pick pairs x := by
        simp [Rule.pick, hne]
      rw [skip]
      refine ih fun name hn => ?_
      rcases List.mem_cons.mp (hx name hn) with rfl | hm
      · exact absurd hn he
      · exact hm

/-- Binding the services of an expression gives its bound form. -/
theorem bindServices_ok {registered : Option (ServiceName → Bool)} {path : Path} {e e' : Expr}
    (good : s.Good) (he : e.Coherent) (h : bindServices registered path e s = .ok (e', s')) :
    s.Grows s' ∧ s'.Good ∧ s'.Covers e ∧ e' = s'.bound e := by
  unfold bindServices at h
  split at h
  · rename_i hs
    have hs := Expr.services_isEmpty.mp hs
    obtain ⟨rfl, rfl⟩ := run_pure_ok.mp h
    exact ⟨.refl s, good, PlanState.covers_of_not_served hs,
      (PlanState.bound_of_not_served he hs).symm⟩
  · generalize (registered.bind fun r => e.services.find? fun name => !r name) = missing at h
    cases missing with
    | some _ => cases h
    | none =>
      obtain ⟨_, t, ht, h⟩ := run_bind_ok.mp h
      cases ht
      have good₁ : PlanState.Good { s with services := e.services.foldl Expr.addName s.services } :=
        ⟨good.below, good.nodup, good.params⟩
      unfold bindHandles at h
      obtain ⟨pairs, s₁, hp, h⟩ := run_bind_ok.mp h
      obtain ⟨grows, good', hall⟩ := handlePairs_ok good₁ hp
      have same : e.swap (Rule.pick pairs) = s₁.bound e := Expr.swap_congr fun x hx =>
        pick_handlePairs hall fun name hn => Expr.mem_services.mpr (hn ▸ hx)
      have renames : e.Renames (Rule.pick pairs) := by
        intro x hx r hr
        rw [pick_handlePairs hall fun name hn => Expr.mem_services.mpr (hn ▸ hx)] at hr
        exact good'.renames x hx r hr
      rw [renames.replaceAll_eq he, draw_pure] at h
      obtain ⟨rfl, rfl⟩ := run_pure_ok.mp h
      refine ⟨⟨grows.fresh, grows.bindings, grows.params⟩, good', fun name hn => ?_, same⟩
      exact exists_param_of_handlePairs hall (Expr.mem_services.mpr hn)

end Handles

end FieldPlan
