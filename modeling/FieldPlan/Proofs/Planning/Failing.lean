import FieldPlan.Proofs.Planning.Fragments
import FieldPlan.Proofs.Schema.Refusals

/-!
# How planning fails

* `Schema.validate_plain` : no check of arguments tells of an expansion without an end;
* `Ends` : planning that does not fail for such an expansion;
* `Planner.planNode_ends`, `Planner.plan_ends` : so planning comes to an end, where expansions do.
-/

namespace FieldPlan

variable {ε α β σ : Type}

/-- A fault other than an expansion without an end. -/
def PlanFault.Plain (fault : PlanFault) : Prop := fault ≠ .endlessExpansion

theorem Schema.validate_plain (schema : Schema) (f : FieldDef) (values : Dict Json) :
    Fails PlanFault.Plain (schema.validate f values) := by
  refine (validate_fails f values).mono fun fault h => ?_
  rcases h with ⟨name, rfl⟩ | h | ⟨name, t, rfl⟩
  · exact fun h => PlanFault.noConfusion h
  · rintro rfl
    exact h
  · exact fun h => PlanFault.noConfusion h

/-! ## Planning -/

/-- Planning that does not fail for an expansion without an end. -/
def Ends (x : StateT σ (Except PlanError) α) : Prop := ∀ s, Fails (·.fault.Plain) (x s)

namespace Ends

theorem pure (a : α) : Ends (Pure.pure a : StateT σ (Except PlanError) α) := fun _ => .pure _

theorem bind {x : StateT σ (Except PlanError) α} {k : α → StateT σ (Except PlanError) β}
    (hx : Ends x) (hk : ∀ a, Ends (k a)) : Ends (x >>= k) := fun s => .bind (hx s) fun r => hk r.1 r.2

theorem lift {x : Except PlanError α} (h : Fails (·.fault.Plain) x) :
    Ends (StateT.lift x : StateT σ (Except PlanError) α) := fun _ => .bind h fun _ => .pure _

theorem draw (x : Fresh α) : Ends (FieldPlan.draw x) := nofun

theorem refuse {path : Path} {fault : PlanFault} (h : fault.Plain) :
    Ends (FieldPlan.refuse path fault : Planning α) := fun _ => .throw h

theorem checkAt (path : Path) {x : Except PlanFault α} (h : Fails PlanFault.Plain x) :
    Ends (FieldPlan.checkAt path x) := by
  apply lift
  intro e he
  cases hx : x with
  | ok a =>
    rw [hx] at he
    cases he
  | error fault =>
    rw [hx] at he
    cases he
    exact h fault hx

theorem foldlM {f : β → α → Planning β} (hf : ∀ b a, Ends (f b a)) (as : List α) (b : β) :
    Ends (as.foldlM f b) := by
  induction as generalizing b with
  | nil => exact pure b
  | cons a as ih =>
    rw [List.foldlM_cons]
    exact bind (hf b a) ih

theorem mapM {f : α → Planning β} (hf : ∀ a, Ends (f a)) (as : List α) : Ends (as.mapM f) := by
  induction as with
  | nil => exact pure []
  | cons a as ih =>
    rw [List.mapM_cons]
    exact bind (hf a) fun b => bind ih fun bs => pure (b :: bs)

theorem serviceParam (name : ServiceName) : Ends (FieldPlan.serviceParam name) := by
  unfold FieldPlan.serviceParam
  refine bind (fun s => .pure _) fun s => ?_
  split
  · exact pure _
  · exact bind (draw _) fun p => bind (fun s => .pure _) fun _ => pure p

theorem bindServices (registered : Option (ServiceName → Bool)) (path : Path) (e : Expr) :
    Ends (FieldPlan.bindServices registered path e) := by
  unfold FieldPlan.bindServices
  split
  · exact pure e
  · split
    · exact refuse nofun
    · refine bind (fun s => .pure _) fun _ => ?_
      unfold bindHandles
      exact bind (mapM (fun name => bind (serviceParam name) fun p => pure _) _) fun pairs => draw _

end Ends

namespace Planner

variable {c : Planner}

theorem runHook_ends (path : Path) (x : Extension) (hook : Hook α) : Ends (runHook path x hook) := by
  intro s e h
  unfold runHook at h
  split at h <;> cases h <;> nofun

theorem directExpr_ends (path : Path) (e : Expr) (uses : List DirectiveUse) :
    Ends (c.directExpr path e uses) := by
  induction uses generalizing e with
  | nil => exact .pure _
  | cons use rest ih =>
    unfold directExpr
    split
    · exact ih e
    · rename_i d _
      have hook : Fails PlanFault.Plain ((d.processExpression e
          (use.arguments.resolve c.assignment)).mapError .badDirective) := by
        intro fault h
        cases hd : d.processExpression e (use.arguments.resolve c.assignment) with
        | ok r =>
          rw [hd] at h
          cases h
        | error m =>
          rw [hd] at h
          cases h
          nofun
      refine .bind (.checkAt path hook) fun r => ?_
      split
      · exact ih _
      · exact .pure _

theorem resolveBase_ends (t : Target) (frame : Frame) : Ends (c.resolveBase t frame) := by
  have context : Ends (c.contextExpr t frame) := by
    unfold contextExpr materializedExpr
    split
    · split
      · exact .pure _
      · split
        · exact .pure _
        · exact .draw _
    · exact .draw _
  have arguments : ∀ arguments e, Ends (bindArguments t arguments e) := by
    intro arguments e
    unfold bindArguments
    split
    · exact .pure _
    · split
      · exact .bind (.draw _) fun bound => .bind (fun s => .pure _) fun _ => .draw _
      · exact .pure _
  unfold resolveBase
  refine .bind (.checkAt t.path (Schema.validate_plain _ _ _)) fun values => .bind context ?_
  rintro ⟨e, materialized⟩
  refine .bind (arguments values e) fun e => .bind (directExpr_ends _ _ _) fun r => ?_
  split <;> exact .pure _

/-- Planning a node comes to an end, where expansions do. -/
theorem planNode_ends
    (expands : ∀ pass path ids, Fails (·.fault.Plain) (c.expand pass path ids)) (depth : Nat)
    (s : Selected) (context : Expr) (lineage : List NodeId) (path : Path) (frame : Frame) :
    Ends (c.planNode depth s context lineage path frame) := by
  have hooks : ∀ {γ : Type} (path : Path) (hook : Extension → γ → Hook γ) (xs : List Extension)
      (a : γ), Ends (xs.foldlM (fun a x => runHook path x (hook x a)) a) :=
    fun path hook xs a => .foldlM (fun a x => runHook_ends path x _) xs a
  have selections : ∀ t site base children item, Ends (selection t site base children item) :=
    fun t site base children item => hooks t.path (fun x acc => x.selection site acc.1 acc.2.1 acc.2.2)
      t.field.extensions (base, children, item)
  have preSelections : ∀ t site base item, Ends (preSelection t site base item) :=
    fun t site base item => hooks t.path (fun x acc => x.preSelection site acc.1 acc.2)
      t.field.extensions (base, item)
  have bound := Ends.bindServices c.registered
  induction depth generalizing s context lineage path frame with
  | zero => exact .refuse fun h => PlanFault.noConfusion h
  | succ depth ih =>
    have children : ∀ t context frame, Ends (c.planChildren (c.planNode depth) t context frame) := by
      intro t context frame
      unfold planChildren
      refine .bind (.lift (expands _ _ _)) fun parts => .foldlM (fun children part => ?_) parts []
      unfold addContribution
      split <;> split
      · exact .pure _
      · refine .bind (ih _ _ _ _ _) fun r => ?_
        split <;> exact .pure _
      · exact .pure _
      · exact .bind (.draw _) fun e => .pure _
    rw [planNode]
    unfold planField
    split
    · exact .pure _
    · split
      · unfold planScalar
        refine .bind (resolveBase_ends _ _) fun r => ?_
        split
        · exact .pure _
        · refine .bind (hooks _ (fun x e => x.scalarExpression _ e) _ _) fun e => ?_
          exact .bind (bound _ e) fun e => .pure _
      · unfold planObject
        refine .bind (resolveBase_ends _ _) fun r => ?_
        split
        · exact .pure _
        · refine .bind (preSelections _ _ _ _) fun changed => .bind (children _ _ _) fun fields => ?_
          split
          · exact .pure _
          · split
            · refine .bind ?_ fun e => .pure _
              unfold wrapOnce
              refine .bind (bound _ _) fun e => .bind (.draw _) fun wrap => ?_
              refine .bind (.mapM (fun child => .draw _) _) fun fields => ?_
              exact .bind (selections _ _ _ _ _) fun changed => .pure _
            · exact .bind (selections _ _ _ _ _) fun changed => .pure _
      · unfold planList
        refine .bind (resolveBase_ends _ _) fun r => ?_
        split
        · exact .pure _
        · split
          · exact .refuse fun h => PlanFault.noConfusion h
          · refine .bind (.draw _) fun item => .bind (preSelections _ _ _ _) fun changed => ?_
            refine .bind (children _ _ _) fun fields => ?_
            split
            · exact .pure _
            · refine .bind (selections _ _ _ _ _) fun changed => ?_
              dsimp only
              split
              · refine .bind ?_ fun e => .pure _
                unfold selectOnce
                refine .bind (bound _ _) fun e => ?_
                split
                · exact .bind (.draw _) fun wrap => .pure _
                · exact .pure _
              · exact .pure _

theorem planRoot_ends
    (expands : ∀ pass path ids, Fails (·.fault.Plain) (c.expand pass path ids)) (rootType : String)
    (s : Selected) : Ends (c.planRoot rootType s) := by
  have pass : ∀ root frame, Ends (c.planPass s root frame) := fun root frame fresh =>
    .bind (planNode_ends expands _ _ _ _ _ _ _) fun r => .pure _
  have drawn : ∀ {γ : Type} (x : Fresh γ), Ends (x.lift : Drawing γ) := fun x s => nofun
  unfold planRoot
  refine .bind (drawn _) fun data => ?_
  split
  · exact .bind (pass _ _) fun plan => .pure _
  · refine .bind (pass _ _) fun shape => ?_
    split
    · refine .bind ?_ fun service => .pure _
      unfold planServicePass
      split
      · exact .bind (drawn _) fun materialized => pass _ _
      · exact pass _ _
    · exact .pure _

theorem collect_ends {e : PlanError} (h : e.fault.Plain) (p : Progress) (field : String) :
    Fails (·.fault.Plain) (p.collect field e) := by
  unfold Progress.collect
  split
  · exact .throw h
  · exact .pure _

/-- Planning an operation comes to an end, where expansions do. -/
theorem plan_ends (expands : ∀ pass path ids, Fails (·.fault.Plain) (c.expand pass path ids)) :
    Fails (·.fault.Plain) c.plan := by
  have rootField : ∀ rootType p s, Fails (·.fault.Plain) (c.addRootField rootType p s) := by
    intro rootType p s
    unfold addRootField
    split
    · exact .pure _
    · split
      · exact .pure _
      · rename_i e h
        exact collect_ends (planRoot_ends expands rootType s p.fresh e h) p _
  have root : ∀ rootType p root, Fails (·.fault.Plain) (c.addRoot rootType p root) := by
    intro rootType p root
    unfold addRoot
    split
    · exact .foldlM (rootField rootType) _ _
    · rename_i e h
      have plain : Fails (·.fault.Plain) (c.expandRoot root) :=
        .bind (expands _ _ _) fun parts => .pure _
      exact collect_ends (plain e h) p _
  unfold plan
  split
  · exact .throw nofun
  · exact .bind (.foldlM (root _) _ _) fun p => .pure _

end Planner

end FieldPlan
