import FieldPlan.Proofs.Expr.Equality
import FieldPlan.Proofs.Planning.Growth
import FieldPlan.Proofs.Planning.Keeping

/-!
# Services that are gathered are used

* `PlanState.Uses` : the services that were gathered between two states have parameters that occur;
* `bindServices_uses`, `Planner.resolveBase_uses` : what binding the services of an expression and
  what planning a field's own value gathers.
-/

namespace FieldPlan

variable {s s' s'' : PlanState} {ids ids' : List Nat}

/-- The services gathered since another state have parameters among these. -/
def PlanState.Uses (s s' : PlanState) (ids : List Nat) : Prop :=
  ∀ name ∈ s'.services, name ∈ s.services ∨ ∃ p, s'.serviceParams.find? name = some p ∧ p.id ∈ ids

namespace PlanState.Uses

theorem of_eq (h : s'.services = s.services) : s.Uses s' ids := fun _ hn => .inl (h ▸ hn)

theorem mono (h : s.Uses s' ids) (hids : ∀ i ∈ ids, i ∈ ids') : s.Uses s' ids' := fun name hn =>
  (h name hn).imp_right fun ⟨p, hp, hi⟩ => ⟨p, hp, hids _ hi⟩

theorem trans (h : s.Uses s' ids) (hs : s'.Grows s'') (h' : s'.Uses s'' ids') :
    s.Uses s'' (ids ++ ids') := by
  intro name hn
  rcases h' name hn with hn | ⟨p, hp, hi⟩
  · exact (h name hn).imp_right fun ⟨p, hp, hi⟩ =>
      ⟨p, hs.params name p hp, List.mem_append_left _ hi⟩
  · exact .inr ⟨p, hp, List.mem_append_right _ hi⟩

end PlanState.Uses

/-- The parameter of a handle occurs in the bound form. -/
theorem PlanState.mem_ids_bound {name : ServiceName} {p : Param}
    (hp : s.serviceParams.find? name = some p) {e : Expr} (h : .service name ∈ e.subterms) :
    p.id ∈ (s.bound e).ids := by
  induction e using Expr.partwise with
  | h e ih =>
    rcases Expr.mem_subterms.mp h with rfl | ⟨c, hc, h⟩
    · rw [PlanState.bound, Expr.swap_some (r := .param p) (by simp [handle, hp])]
      exact Expr.mem_ids.mpr ⟨_, Expr.self_mem_subterms _, p, rfl, rfl⟩
    · have hnone : s.handle e = none := by
        cases e <;> first | rfl | cases hc
      rw [PlanState.bound, Expr.swap_none hnone]
      refine Expr.ids_of_child ?_ (ih c hc h)
      rw [Expr.children_mapParts]
      exact List.mem_map_of_mem hc

/-! ## Parameters that occur -/

namespace Expr

theorem mem_ids_guarded {guard build : Expr} {i : Nat} (h : i ∈ guard.ids ∨ i ∈ build.ids) :
    i ∈ (nullGuarded guard build).ids := by
  rcases h with hi | hi
  · exact ids_of_child List.mem_cons_self (ids_of_child List.mem_cons_self hi)
  · exact ids_of_child (by simp [nullGuarded, children]) hi

theorem mem_ids_record {name : String} {fields : List (String × Expr)} {field : String × Expr}
    (hf : field ∈ fields) {i : Nat} (hi : i ∈ field.2.ids) : i ∈ (record name fields).ids :=
  ids_of_child (List.mem_map_of_mem hf) hi

theorem mem_ids_children (name : String) {fields : List (String × Expr)} {i : Nat}
    (hi : i ∈ fields.flatMap (·.2.ids)) : i ∈ (record name fields).ids := by
  obtain ⟨field, hf, hi⟩ := List.mem_flatMap.mp hi
  exact mem_ids_record hf hi

/-- What a swap does not replace stays. -/
theorem mem_ids_swap {f : Expr → Option Expr} {e : Expr} {i : Nat} (hi : i ∈ e.ids) :
    i ∈ (e.swap f).ids ∨ ∃ x ∈ e.subterms, (f x).isSome = true ∧ i ∈ x.ids := by
  induction e using partwise with
  | h e ih =>
    cases hf : f e with
    | some r => exact .inr ⟨e, self_mem_subterms e, by rw [hf]; rfl, hi⟩
    | none =>
      rw [swap_none hf]
      rcases mem_ids_iff.mp hi with ⟨p, hp, rfl⟩ | ⟨c, hc, hi⟩
      · exact .inl (mem_ids_iff.mpr (.inl ⟨p, by rw [own_mapParts, hp], rfl⟩))
      · rcases ih c hc hi with hi | ⟨x, hx, h⟩
        · refine .inl (ids_of_child ?_ hi)
          rw [children_mapParts]
          exact List.mem_map_of_mem hc
        · exact .inr ⟨x, mem_subterms_of_child hc hx, h⟩

end Expr

theorem PlanState.ids_bound {e : Expr} {i : Nat} (hi : i ∈ e.ids) : i ∈ (s.bound e).ids := by
  refine (Expr.mem_ids_swap hi).resolve_right ?_
  rintro ⟨x, -, hx, hi⟩
  cases x with
  | service name => cases hi
  | _ => cases hx

/-! ## Binding -/

/-- Binding the services of an expression gathers these. -/
theorem bindServices_gathers {registered : Option (ServiceName → Bool)} {path : Path} {e e' : Expr}
    (h : bindServices registered path e s = .ok (e', s')) :
    ∀ name ∈ s'.services, name ∈ s.services ∨ name ∈ e.services := by
  have one : ∀ name ∈ e.services, Keeps (fun t : PlanState => ∀ n ∈ t.services,
      n ∈ s.services ∨ n ∈ e.services) (serviceParam name) := by
    intro name hname t p t' ht h
    unfold serviceParam at h
    obtain ⟨u, t₁, hget, h⟩ := run_bind_ok.mp h
    cases hget
    cases hf : t.serviceParams.find? name with
    | some q =>
      rw [hf] at h
      obtain ⟨-, rfl⟩ := run_pure_ok.mp h
      exact ht
    | none =>
      rw [hf] at h
      obtain ⟨q, t₂, hdraw, h⟩ := run_bind_ok.mp h
      cases hdraw
      cases h
      intro n hn
      rcases (Expr.mem_foldl_addName [name] _ n).mp hn with hn | hn
      · exact ht n hn
      · cases List.mem_singleton.mp hn
        exact .inr hname
  unfold bindServices at h
  split at h
  · obtain ⟨-, rfl⟩ := run_pure_ok.mp h
    exact fun name hn => .inl hn
  · generalize (registered.bind fun r => e.services.find? fun name => !r name) = missing at h
    cases missing with
    | some _ => cases h
    | none =>
      obtain ⟨_, t, ht, h⟩ := run_bind_ok.mp h
      cases ht
      unfold bindHandles at h
      obtain ⟨pairs, s₁, hp, h⟩ := run_bind_ok.mp h
      cases h
      have found : ∀ name ∈ s₁.services, name ∈ s.services ∨ name ∈ e.services :=
        Keeps.mapM (fun name hname => .bind (one name hname) fun p => .pure _) _ _ _
          (fun name hn => (Expr.mem_foldl_addName _ _ name).mp hn) hp
      exact found

/-- The services gathered by binding those of an expression are used by its bound form. -/
theorem bindServices_uses {registered : Option (ServiceName → Bool)} {path : Path} {e e' : Expr}
    (good : s.Good) (he : e.Coherent) (h : bindServices registered path e s = .ok (e', s')) :
    s.Uses s' e'.ids := by
  obtain ⟨-, -, covers, rfl⟩ := bindServices_ok good he h
  refine fun name hn => (bindServices_gathers h name hn).imp_right fun hn => ?_
  have handle := Expr.mem_services.mp hn
  obtain ⟨p, hp⟩ := covers name handle
  exact ⟨p, hp, PlanState.mem_ids_bound hp handle⟩

/-- Planning a field's own value gathers no service. -/
theorem Planner.resolveBase_uses {c : Planner} {t : Target} {frame : Frame} {r : Option Base}
    (h : c.resolveBase t frame s = .ok (r, s')) : s.Uses s' ids :=
  .of_eq (c.resolveBase_keeps (I := fun t => t.services = s.services) (fun _ _ h => h)
    (fun _ _ _ h => h) t frame s r s' rfl h)

end FieldPlan
