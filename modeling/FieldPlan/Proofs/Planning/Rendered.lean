import FieldPlan.Proofs.Planning.Keeping
import FieldPlan.Proofs.Planning.Node
import FieldPlan.Proofs.Wanted.Plannable

/-!
# What was rendered

* `Renders.plannable` : of what a plan renders, lists are arranged by fields that need no service, and
  the services that are called are registered;
* `Wanted.Shaped.ty_eq` : what the shape pass renders has the type of what it wants.
-/

namespace FieldPlan

open Expr

variable {config : SchemaConfig} {registered : Option (ServiceName → Bool)} {final : PlanState}
  {context e : Expr}

/-! ## Services and arrangements -/

theorem Expr.Sorted.sources {entity : String} {element : Ty} {first : Bool}
    {order : List (String × Direction)} {base sorted : Expr}
    (h : Sorted config entity element first order base sorted) :
    ∀ key ∈ order, ∃ source, config.source? entity key.1 = some source ∧ source.isService = false := by
  induction h with
  | nil => exact fun _ h => absurd h List.not_mem_nil
  | cons found _ own _ ih =>
    refine List.forall_mem_cons.mpr ⟨⟨_, found, ?_⟩, ih⟩
    cases own <;> rfl

theorem Expr.Own.mem_services {Record : Param → Prop} {name : ServiceName} {method : String}
    {args : List ServiceArg} (h : Own Record context (.service name method args) e) :
    name ∈ e.services := by
  cases h with
  | service name method t _ =>
    refine mem_services_iff.mpr (.inr ⟨.service name, List.mem_cons_self, ?_⟩)
    exact mem_services_iff.mpr (.inl rfl)

theorem RendersAll.plannableAll {ws : List Wanted} {fields : List (String × Expr)}
    (each : ∀ w ∈ ws, ∀ context e, Renders config final context w e → w.Plannable config registered)
    (h : RendersAll config final context ws fields) : Wanted.PlannableAll config registered ws := by
  induction ws generalizing fields with
  | nil => trivial
  | cons w ws ih =>
    obtain ⟨hw, hws⟩ := List.forall_mem_cons.mp each
    cases h with
    | cons hfirst hrest => exact ⟨hw _ _ hfirst, ih hws hrest⟩

section Gathered

variable (good : final.Good) (gathered : Gathered registered final.bindings final.services)

include good gathered

theorem Reads.plannable {base : Expr} {item : Item} (h : Reads config final context item base e) :
    item.Plannable config registered := by
  obtain ⟨a, ha, arranges⟩ := h.arranged
  refine ⟨⟨a, ha, fun order => ?_⟩, fun name method args hs r hr => ?_⟩
  · cases arranges with
    | plain none => exact absurd none order
    | sorted _ hel hen sorted => exact ⟨_, _, h.ty ▸ hel, hen, sorted.sources⟩
  · have called : name ∈ e.services :=
      arranges.mem_services.mpr (Own.mem_services (hs ▸ h.own))
    obtain ⟨p, hp⟩ := h.covers name (mem_services.mp called)
    exact gathered.registered r hr name (gathered.bound p name (good.params name p hp).1)

/-- What was rendered can be planned. -/
theorem Renders.plannable {w : Wanted} (h : Renders config final context w e) :
    w.Plannable config registered := by
  induction w using Wanted.induction generalizing context e with
  | leaf item =>
    cases h with
    | leaf reads => exact reads.plannable good gathered
  | object item ws ih =>
    cases h with
    | plain reads _ children _ | wrapped reads _ _ children _ _ _ _ _ =>
      exact ⟨reads.plannable good gathered, children.plannableAll fun w hw _ _ h => ih w hw h⟩
  | list item ws ih =>
    cases h with
    | items reads _ hel children _ _ | fetched reads _ hel children _ _ _ _ =>
      refine ⟨reads.plannable good gathered, ?_, children.plannableAll fun w hw _ _ h => ih w hw h⟩
      rw [← reads.ty, hel]
      rfl

end Gathered

/-! ## Types -/

theorem Expr.ty_guardIf (needed : Bool) (guard build : Expr) :
    (guardIf needed guard build).ty = if needed then build.ty.orNull else build.ty := by
  cases needed <;> rfl

theorem RendersAll.fieldTys_eq {ws : List Wanted} {fields : List (String × Expr)}
    (each : ∀ w ∈ ws, ∀ e, Renders config final context w e → e.ty = w.resultTy)
    (h : RendersAll config final context ws fields) : fieldTys fields = Wanted.resultTys ws := by
  induction ws generalizing fields with
  | nil =>
    cases h
    rfl
  | cons w ws ih =>
    obtain ⟨hw, hws⟩ := List.forall_mem_cons.mp each
    cases h with
    | cons hfirst hrest => rw [fieldTys, Wanted.resultTys, hw _ hfirst, ih hws hrest]

/-- The expression of a value that comes from no service. -/
theorem Reads.unserved {base : Expr} {item : Item} (h : Reads config final context item base e)
    (hs : item.source.isService = false) (hc : ¬context.Served) : ¬e.Served := by
  obtain ⟨a, -, arranges⟩ := h.arranged
  rw [arranges.served_iff]
  exact h.own.not_served (fun name method args h => by rw [h] at hs; cases hs) hc

theorem Renders.ty_leaf {item : Item} (h : Renders config final context (.leaf item) e)
    (hs : item.source.isService = false) (hc : ¬context.Served) : e.ty = item.ty := by
  cases h with
  | leaf reads =>
    rw [PlanState.bound_of_not_served reads.coherent (reads.unserved hs hc), reads.ty_eq]

/-- What the shape pass renders has the type of what it wants. -/
theorem Wanted.Shaped.ty_eq {w x : Wanted} (h : w.Shaped x) (hs : w.item.source.isService = false)
    (hc : ¬context.Served) (renders : Renders config final context x e) : e.ty = x.resultTy := by
  induction w using Wanted.induction generalizing x context e with
  | leaf item =>
    cases h
    exact renders.ty_leaf hs hc
  | object item ws ih =>
    obtain ⟨shaped, all, accounts, rfl⟩ := h
    cases shaped with
    | nil => exact renders.ty_leaf hs hc
    | cons x shaped =>
      rw [List.isEmpty_cons, if_neg Bool.false_ne_true] at renders ⊢
      cases renders with
      | plain reads unserved children =>
        have fields := children.fieldTys_eq fun y hy e he => by
          obtain ⟨w, hw, hs, shape⟩ | ⟨w, -, -, path, -, field, rfl⟩ := accounts.cases all hy
          · exact ih w hw shape hs unserved he
          · exact he.ty_leaf rfl unserved
        rw [ty_guardIf, reads.ty_eq, Expr.ty, fields, Wanted.resultTy]
        cases item.ty.nullable <;> rfl
      | wrapped reads served => exact absurd served (reads.unserved hs hc)
  | list item ws ih =>
    obtain ⟨shaped, all, accounts, rfl⟩ := h
    cases shaped with
    | nil => exact renders.ty_leaf hs hc
    | cons x shaped =>
      rw [List.isEmpty_cons, if_neg Bool.false_ne_true] at renders ⊢
      cases renders with
      | @items _ base _ _ _ _ p reads _ _ children =>
        have fields := children.fieldTys_eq fun y hy e he => by
          obtain ⟨w, hw, hs, shape⟩ | ⟨w, -, -, path, -, field, rfl⟩ := accounts.cases all hy
          · exact ih w hw shape hs (not_served_param p) he
          · exact he.ty_leaf rfl (not_served_param p)
        rw [ty_guardIf, reads.ty, Expr.ty, Expr.ty, fields, Wanted.resultTy]
        cases item.ty.nullable <;> rfl
      | fetched reads served => exact absurd served (reads.unserved hs hc)

end FieldPlan
