import FieldPlan.Planning.Field
import FieldPlan.Proofs.Expr.Served
import FieldPlan.Proofs.Success

/-!
# What planning keeps

* `Keeps` : computations after which holds what held before;
* `Planner.resolveBase_keeps` : the expression of a field's own value draws parameters and binds values;
* `Planner.planNode_keeps` : planning a node does this and binds services, and no more;
* `Gathered`, `Planner.planNode_gathered` : what planning keeps of the services that are called.
-/

namespace FieldPlan

variable {α β : Type} {I : PlanState → Prop}

/-- What holds before a computation that succeeds holds after it. -/
def Keeps (I : PlanState → Prop) (x : Planning α) : Prop :=
  ∀ s a s', I s → x s = .ok (a, s') → I s'

namespace Keeps

theorem pure (a : α) : Keeps I (Pure.pure a) := by
  intro s b s' hs h
  obtain ⟨-, rfl⟩ := run_pure_ok.mp h
  exact hs

theorem bind {x : Planning α} {k : α → Planning β} (hx : Keeps I x) (hk : ∀ a, Keeps I (k a)) :
    Keeps I (x >>= k) := by
  intro s b s' hs h
  obtain ⟨a, t, ha, h⟩ := run_bind_ok.mp h
  exact hk a t b s' (hx s a t hs ha) h

theorem lift (x : Except PlanError α) : Keeps I (StateT.lift x) := by
  intro s a s' hs h
  obtain ⟨-, rfl⟩ := run_lift_ok.mp h
  exact hs

theorem checkAt (path : Path) (x : Except PlanFault α) : Keeps I (FieldPlan.checkAt path x) :=
  lift _

theorem refuse (path : Path) (fault : PlanFault) :
    Keeps I (FieldPlan.refuse path fault : Planning α) := nofun

theorem foldlM {f : β → α → Planning β} (hf : ∀ b a, Keeps I (f b a)) (as : List α) (b : β) :
    Keeps I (as.foldlM f b) := by
  induction as generalizing b with
  | nil => exact pure b
  | cons a as ih =>
    rw [List.foldlM_cons]
    exact bind (hf b a) ih

theorem mapM {f : α → Planning β} {as : List α} (hf : ∀ a ∈ as, Keeps I (f a)) :
    Keeps I (as.mapM f) := by
  induction as with
  | nil => exact pure []
  | cons a as ih =>
    obtain ⟨hfirst, hrest⟩ := List.forall_mem_cons.mp hf
    rw [List.mapM_cons]
    exact bind hfirst fun b => bind (ih hrest) fun bs => pure (b :: bs)

end Keeps

/-! ## Drawing and binding values -/

section Drawing

variable {c : Planner} (drawn : ∀ s n, I s → I { s with fresh := n })

include drawn

theorem Keeps.draw (x : Fresh α) : Keeps I (FieldPlan.draw x) := by
  intro s a s' hs h
  cases h
  exact drawn s _ hs

theorem Planner.runHook_keeps (path : Path) (x : Extension) (hook : Hook α) :
    Keeps I (Planner.runHook path x hook) := by
  intro s a s' hs h
  unfold Planner.runHook at h
  split at h <;> cases h
  exact drawn s _ hs

theorem Planner.contextExpr_keeps (t : Target) (frame : Frame) :
    Keeps I (c.contextExpr t frame) := by
  unfold Planner.contextExpr Planner.materializedExpr
  split
  · split
    · exact .pure _
    · split
      · exact .pure _
      · exact .draw drawn _
  · exact .draw drawn _

variable (valued : ∀ s p v, I s → I { s with bindings := s.bindings ++ [(p, .value v)] })

include valued

theorem Planner.bindArguments_keeps (t : Target) (arguments : Dict Json) (e : Expr) :
    Keeps I (Planner.bindArguments t arguments e) := by
  have constant : ∀ p v, Keeps I (addConstant p v) := by
    intro p v s _ s' hs h
    cases h
    exact valued s p v hs
  unfold Planner.bindArguments
  split
  · exact .pure _
  · split
    · exact .bind (.draw drawn _) fun bound => .bind (constant bound _) fun _ => .draw drawn _
    · exact .pure _

/-- The expression of a field's own value draws parameters and binds values. -/
theorem Planner.resolveBase_keeps (t : Target) (frame : Frame) :
    Keeps I (c.resolveBase t frame) := by
  have direct : ∀ path uses e, Keeps I (c.directExpr path e uses) := by
    intro path uses
    induction uses with
    | nil => exact fun e => .pure _
    | cons use rest ih =>
      intro e
      unfold Planner.directExpr
      split
      · exact ih e
      · refine .bind (.checkAt path _) fun r => ?_
        split
        · exact ih _
        · exact .pure _
  unfold Planner.resolveBase
  refine .bind (.checkAt t.path _) fun arguments => .bind (c.contextExpr_keeps drawn t frame) ?_
  rintro ⟨e, materialized⟩
  refine .bind (Planner.bindArguments_keeps drawn valued t arguments e) fun e =>
    .bind (direct _ _ _) fun r => ?_
  split <;> exact .pure _

/-! ## Planning nodes -/

variable (bound : ∀ path e, Keeps I (bindServices c.registered path e))

include bound

/-- Planning a node draws parameters, binds values and services, and no more. -/
theorem Planner.planNode_keeps (depth : Nat) (s : Selected) (context : Expr) (lineage : List NodeId)
    (path : Path) (frame : Frame) : Keeps I (c.planNode depth s context lineage path frame) := by
  have hooks : ∀ {γ : Type} (path : Path) (hook : Extension → γ → Hook γ) (xs : List Extension)
      (a : γ), Keeps I (xs.foldlM (fun a x => Planner.runHook path x (hook x a)) a) :=
    fun path hook xs a => .foldlM (fun a x => Planner.runHook_keeps drawn path x _) xs a
  induction depth generalizing s context lineage path frame with
  | zero => exact .refuse _ _
  | succ depth ih =>
    have children : ∀ t context frame, Keeps I (c.planChildren (c.planNode depth) t context frame) := by
      intro t context frame
      unfold Planner.planChildren
      refine .bind (.lift _) fun parts => .foldlM (fun children part => ?_) parts []
      unfold Planner.addContribution
      split <;> split
      · exact .pure _
      · refine .bind (ih _ _ _ _ _) fun r => ?_
        split <;> exact .pure _
      · exact .pure _
      · exact .bind (.draw drawn _) fun e => .pure _
    have base := fun t frame => c.resolveBase_keeps drawn valued t frame
    have selections : ∀ t site base children item,
        Keeps I (Planner.selection t site base children item) :=
      fun t site base children item => hooks t.path (fun x acc => x.selection site acc.1 acc.2.1 acc.2.2)
        t.field.extensions (base, children, item)
    have preSelections : ∀ t site base item, Keeps I (Planner.preSelection t site base item) :=
      fun t site base item => hooks t.path (fun x acc => x.preSelection site acc.1 acc.2)
        t.field.extensions (base, item)
    rw [Planner.planNode]
    unfold Planner.planField
    split
    · exact .pure _
    · split
      · unfold Planner.planScalar
        refine .bind (base _ _) fun r => ?_
        split
        · exact .pure _
        · refine .bind (hooks _ (fun x e => x.scalarExpression _ e) _ _) fun e => ?_
          exact .bind (bound _ e) fun e => .pure _
      · unfold Planner.planObject
        refine .bind (base _ _) fun r => ?_
        split
        · exact .pure _
        · refine .bind (preSelections _ _ _ _) fun changed => .bind (children _ _ _) fun fields => ?_
          split
          · exact .pure _
          · split
            · refine .bind ?_ fun e => .pure _
              unfold Planner.wrapOnce
              refine .bind (bound _ _) fun e => .bind (.draw drawn _) fun wrap => ?_
              refine .bind (.mapM fun child _ => .draw drawn _) fun fields => ?_
              exact .bind (selections _ _ _ _ _) fun changed => .pure _
            · exact .bind (selections _ _ _ _ _) fun changed => .pure _
      · unfold Planner.planList
        refine .bind (base _ _) fun r => ?_
        split
        · exact .pure _
        · split
          · exact .refuse _ _
          · refine .bind (.draw drawn _) fun item => .bind (preSelections _ _ _ _) fun changed => ?_
            refine .bind (children _ _ _) fun fields => ?_
            split
            · exact .pure _
            · refine .bind (selections _ _ _ _ _) fun changed => ?_
              dsimp only
              split
              · refine .bind ?_ fun e => .pure _
                unfold Planner.selectOnce
                refine .bind (bound _ _) fun e => ?_
                split
                · exact .bind (.draw drawn _) fun wrap => .pure _
                · exact .pure _
              · exact .pure _

end Drawing

/-! ## Services -/

/-- The services that are called, each once, are registered, and the services of bindings are among
them. -/
structure Gathered (registered : Option (ServiceName → Bool)) (bindings : List (Param × Binding))
    (services : List ServiceName) : Prop where
  nodup : services.Nodup
  bound : ∀ p name, (p, .service name) ∈ bindings → name ∈ services
  registered : ∀ r, registered = some r → ∀ name ∈ services, r name = true

namespace Gathered

variable {registered : Option (ServiceName → Bool)} {bindings : List (Param × Binding)}
  {services : List ServiceName}

theorem start : Gathered registered [] [] := ⟨List.nodup_nil, nofun, fun _ _ => nofun⟩

theorem valued (h : Gathered registered bindings services) (p : Param) (v : Json) :
    Gathered registered (bindings ++ [(p, .value v)]) services where
  nodup := h.nodup
  bound q name hq := by
    rcases List.mem_append.mp hq with hq | hq
    · exact h.bound q name hq
    · cases List.mem_singleton.mp hq
  registered := h.registered

theorem nodup_addName {names : List String} (h : names.Nodup) (name : String) :
    (Expr.addName names name).Nodup := by
  unfold Expr.addName
  split
  · exact h
  · rename_i hnew
    refine List.nodup_append.mpr ⟨h, by simp, fun a ha b hb => ?_⟩
    cases List.mem_singleton.mp hb
    rintro rfl
    exact hnew (by simpa using ha)

theorem addNames (h : Gathered registered bindings services) {names : List ServiceName}
    (hr : ∀ r, registered = some r → ∀ name ∈ names, r name = true) :
    Gathered registered bindings (names.foldl Expr.addName services) where
  nodup := by
    have nodup := h.nodup
    clear h hr
    induction names generalizing services with
    | nil => exact nodup
    | cons name names ih => exact ih (nodup_addName nodup name)
  bound p name hp := (Expr.mem_foldl_addName _ _ _).mpr (.inl (h.bound p name hp))
  registered r hreg name hname := by
    rcases (Expr.mem_foldl_addName _ _ _).mp hname with hname | hname
    · exact h.registered r hreg name hname
    · exact hr r hreg name hname

end Gathered

/-- What a state has gathered. -/
def PlanState.Gathered (registered : Option (ServiceName → Bool)) (s : PlanState) : Prop :=
  FieldPlan.Gathered registered s.bindings s.services

namespace PlanState.Gathered

variable {registered : Option (ServiceName → Bool)}

theorem serviceParam {name : ServiceName} (hr : ∀ r, registered = some r → r name = true) :
    Keeps (Gathered registered) (FieldPlan.serviceParam name) := by
  intro s p s' hs h
  unfold FieldPlan.serviceParam at h
  obtain ⟨t, s₁, hget, h⟩ := run_bind_ok.mp h
  cases hget
  cases hf : s.serviceParams.find? name with
  | some q =>
    rw [hf] at h
    obtain ⟨-, rfl⟩ := run_pure_ok.mp h
    exact hs
  | none =>
    rw [hf] at h
    obtain ⟨q, s₂, hdraw, h⟩ := run_bind_ok.mp h
    cases hdraw
    cases h
    have added : FieldPlan.Gathered registered s.bindings ([name].foldl Expr.addName s.services) :=
      FieldPlan.Gathered.addNames hs fun r hreg n hn => by
        cases List.mem_singleton.mp hn
        exact hr r hreg
    refine ⟨added.nodup, fun p n hp => ?_, added.registered⟩
    rcases List.mem_append.mp hp with hp | hp
    · exact added.bound p n hp
    · cases List.mem_singleton.mp hp
      exact (Expr.mem_foldl_addName [name] _ _).mpr (.inr (List.mem_singleton.mpr rfl))

/-- Binding services keeps them registered. -/
theorem bindServices (path : Path) (e : Expr) :
    Keeps (Gathered registered) (FieldPlan.bindServices registered path e) := by
  intro s e' s' hs h
  unfold FieldPlan.bindServices at h
  split at h
  · obtain ⟨-, rfl⟩ := run_pure_ok.mp h
    exact hs
  · cases hm : registered.bind fun r => e.services.find? fun name => !r name with
    | some missing =>
      rw [hm] at h
      cases h
    | none =>
      rw [hm] at h
      have known : ∀ r, registered = some r → ∀ name ∈ e.services, r name = true := by
        rintro r rfl name hname
        have found := List.find?_eq_none.mp hm name hname
        simpa using found
      obtain ⟨_, t, ht, h⟩ := run_bind_ok.mp h
      cases ht
      have gathered : Gathered registered
          { s with services := e.services.foldl Expr.addName s.services } :=
        FieldPlan.Gathered.addNames hs known
      unfold bindHandles at h
      obtain ⟨pairs, s₁, hp, h⟩ := run_bind_ok.mp h
      cases h
      have keeps : Gathered registered s₁ := Keeps.mapM (fun name hname =>
        .bind (serviceParam fun r hr => known r hr name hname) fun p => .pure _) _ _ _ gathered hp
      exact keeps

end PlanState.Gathered

/-- Planning a node keeps the services registered that it gathers. -/
theorem Planner.planNode_gathered {c : Planner} (depth : Nat) (s : Selected) (context : Expr)
    (lineage : List NodeId) (path : Path) (frame : Frame) :
    Keeps (PlanState.Gathered c.registered) (c.planNode depth s context lineage path frame) :=
  c.planNode_keeps (I := PlanState.Gathered c.registered) (fun _ _ h => h)
    (fun _ p v h => FieldPlan.Gathered.valued h p v) PlanState.Gathered.bindServices depth s context
    lineage path frame

end FieldPlan
