import FieldPlan.Proofs.Planning.Embedding
import FieldPlan.Proofs.Planning.Redrawing
import FieldPlan.Proofs.Planning.SinglePass
import FieldPlan.Proofs.Selection.OneRoot

/-!
# Roots are planned in isolation

What a root selection plans does not depend on the other ones: the plans of an operation are the plans
of the operations that consist of one of its roots, in a row, up to the numbers of parameters.

* `PlannedField.renumber`, `Planner.planRoot_renumbered` : a planned root field under new numbers;
* `Progress.after`, `Planner.addRoot_after` : a root adds the same to whatever was planned before;
* `PlannedOperation.Joins` : an operation that puts operations in a row;
* `Planner.plan_by_roots` : an operation fails as the first of its roots that fails alone, and else
  joins what its roots plan alone.
-/

namespace FieldPlan

/-! ## Plans under new numbers -/

/-- A plan under new numbers of parameters. -/
def Plan.renumber (ρ : Nat → Nat) (p : Plan) : Plan where
  root := p.root.renumber ρ
  body := p.body.renumber ρ
  bindings := p.bindings.map (Prod.map (Param.renumber ρ) id)
  services := p.services

/-- A planned root field under new numbers of parameters. -/
def PlannedField.renumber (ρ : Nat → Nat) (f : PlannedField) : PlannedField where
  name := f.name
  shapePass := f.shapePass.map (Plan.renumber ρ)
  servicePass := f.servicePass.map (Plan.renumber ρ)

namespace Planner

variable {config : SchemaConfig} {c : Planner} (built : config.build = .ok c.schema)
  (onSchema : c.tree.Over c.schema)

/-- A computation that draws under new numbers what another one draws. -/
abbrev Drawing.Renumbered {α β : Type} {low : Nat} (ρ : Renumbering low) (r : α → β) (x : Drawing α)
    (y : Drawing β) : Prop :=
  Mirrors ρ (low ≤ ·) r x y

variable (ρ : Renumbering c.schema.fresh) {s : Selected} (hs : s.field ∈ c.schema.fields)

include built onSchema hs

theorem planPass_renumbered (root : Param) (frame : Frame) :
    Drawing.Renumbered ρ (Option.map (Plan.renumber ρ)) (c.planPass s root frame)
      (c.planPass s (root.renumber ρ) frame) := by
  intro n hn
  obtain ⟨same, low⟩ := planNode_renumbered built onSchema (ρ := ρ) (c.options.maxDepth + 1) s hs
    (.param root) [] [s.node.name] frame { fresh := n } hn
  show (c.planNode (c.options.maxDepth + 1) s (.param (root.renumber ρ)) [] [s.node.name] frame
      { fresh := ρ n } >>= _) = Except.map _ (c.planNode (c.options.maxDepth + 1) s (.param root) []
        [s.node.name] frame { fresh := n } >>= _) ∧ _
  rw [show c.planNode (c.options.maxDepth + 1) s (.param (root.renumber ρ)) [] [s.node.name] frame
    { fresh := ρ n } = _ from same]
  cases hp : c.planNode (c.options.maxDepth + 1) s (.param root) [] [s.node.name] frame
    { fresh := n } with
  | error e =>
    refine ⟨rfl, fun a n' ha => ?_⟩
    obtain ⟨_, h, -⟩ := bind_ok.mp ha
    exact absurd (hp.symm.trans h) nofun
  | ok r =>
    obtain ⟨body, state⟩ := r
    refine ⟨?_, fun a n' ha => ?_⟩
    · cases body <;> rfl
    · obtain ⟨_, h, ha⟩ := bind_ok.mp ha
      cases hp.symm.trans h
      cases ha
      exact low body state hp

/-- A root field is planned in the same way under new numbers. -/
theorem planRoot_renumbered (rootType : String) :
    Drawing.Renumbered ρ (PlannedField.renumber ρ) (c.planRoot rootType s)
      (c.planRoot rootType s) := by
  have pass := fun root frame => planPass_renumbered built onSchema ρ hs root frame
  have drawn : ∀ name t, Drawing.Renumbered ρ (Param.renumber ρ) (Fresh.param name t).lift
      (Fresh.param name t).lift := fun name t => (Fresh.Renumbered.param name t).lift
  unfold planRoot
  refine (drawn "data" _).bind fun data => ?_
  split
  · exact (pass data _).bind fun plan => .pure rfl
  · refine (pass data _).bind fun shape => ?_
    split
    · refine Mirrors.bind (r := Option.map (Plan.renumber ρ)) ?_ fun service => .pure rfl
      cases shape with
      | none => exact pass data _
      | some shape =>
        unfold planServicePass
        have ty : (shape.renumber ρ).resultTy = shape.resultTy := Expr.ty_renumber ρ shape.body
        dsimp only [Option.map_some]
        rw [ty]
        exact (drawn s.node.name shape.resultTy).bind fun materialized => pass materialized _
    · exact .pure rfl

end Planner

/-! ## Roots after others -/

namespace Planner

/-- What was planned first, and after it under new numbers what another run planned. -/
def Progress.after (ρ : Nat → Nat) (p q : Progress) : Progress where
  fresh := ρ q.fresh
  fields := p.fields ++ q.fields.map (PlannedField.renumber ρ)
  errors := p.errors ++ q.errors

theorem Progress.collect_after (ρ : Nat → Nat) (p q : Progress) (field : String) (e : PlanError) :
    (p.after ρ q).collect field e = (q.collect field e).map (p.after ρ) := by
  unfold Progress.collect
  split
  · rfl
  · refine congrArg Except.ok ?_
    rw [Progress.after, Progress.after, List.append_assoc]

theorem Progress.collect_ok {p q : Progress} {field : String} {e : PlanError}
    (h : p.collect field e = .ok q) : q.fresh = p.fresh ∧ q.fields = p.fields := by
  unfold Progress.collect at h
  split at h <;> cases h
  exact ⟨rfl, rfl⟩

def rootNames (c : Planner) (root : NodeId) : List String :=
  ((c.expandRoot root).toOption.getD []).map (·.node.name)

end Planner

namespace Planner

variable {config : SchemaConfig} {c : Planner} (built : config.build = .ok c.schema)
  (onSchema : c.tree.Over c.schema) (ρ : Renumbering c.schema.fresh) {rootType : String}
  {p q : Progress}

include built onSchema

theorem addRootField_after {s : Selected} (kept : c.Kept s) (hq : c.schema.fresh ≤ q.fresh)
    (apart : ∀ f ∈ p.fields, f.name ≠ s.node.name) :
    c.addRootField rootType (p.after ρ q) s =
      (c.addRootField rootType q s).map (p.after ρ) := by
  have known : (p.after ρ q).fields.any (·.name == s.node.name) =
      q.fields.any (·.name == s.node.name) := by
    have none : p.fields.any (·.name == s.node.name) = false := by
      simpa using apart
    rw [Progress.after, List.any_append, none, Bool.false_or, List.any_map]
    rfl
  obtain ⟨same, -⟩ := planRoot_renumbered built onSchema ρ kept.field rootType q.fresh hq
  unfold addRootField
  rw [known, show (c.planRoot rootType s).run (p.after ρ q).fresh = _ from same]
  split
  · rfl
  · dsimp only [StateT.run]
    cases c.planRoot rootType s q.fresh with
    | error e => exact Progress.collect_after ρ p q s.node.name e
    | ok r =>
      refine congrArg Except.ok ?_
      simp [Progress.after]

/-- What a root field adds has its name, and draws more parameters. -/
theorem addRootField_names {s : Selected} (kept : c.Kept s) (hq : c.schema.fresh ≤ q.fresh)
    {q' : Progress} (h : c.addRootField rootType q s = .ok q') :
    c.schema.fresh ≤ q'.fresh ∧ ∀ f ∈ q'.fields, f ∈ q.fields ∨ f.name = s.node.name := by
  unfold addRootField at h
  split at h
  · cases h
    exact ⟨hq, fun f hf => .inl hf⟩
  · split at h
    · rename_i field n hplan
      cases h
      have outcome := planRoot_ok built onSchema kept hq hplan
      refine ⟨hq.trans outcome.fresh_le, fun f hf => ?_⟩
      rcases List.mem_append.mp hf with hf | hf
      · exact .inl hf
      · cases List.mem_singleton.mp hf
        exact .inr outcome.name_eq
    · obtain ⟨hfresh, hfields⟩ := Progress.collect_ok h
      exact ⟨hfresh ▸ hq, fun f hf => .inl (hfields ▸ hf)⟩

/-- A root adds the same to whatever was planned before, if none of its names was. -/
theorem addRoot_after {root : NodeId} (hq : c.schema.fresh ≤ q.fresh)
    (apart : ∀ f ∈ p.fields, f.name ∉ c.rootNames root) :
    c.addRoot rootType (p.after ρ q) root = (c.addRoot rootType q root).map (p.after ρ) := by
  have standard : c.schema.Standard := (SchemaConfig.build_ok built).2.1
  unfold addRoot
  unfold rootNames at apart
  cases hselected : c.expandRoot root with
  | error e => exact Progress.collect_after ρ p q _ e
  | ok selected =>
    have kept : ∀ s ∈ selected, c.Kept s := fun s hs =>
      expandRoot_kept standard onSchema hselected hs
    rw [hselected] at apart
    replace apart : ∀ s ∈ selected, ∀ f ∈ p.fields, f.name ≠ s.node.name :=
      fun s hs f hf he => apart f hf (List.mem_map.mpr ⟨s, hs, he.symm⟩)
    clear hselected
    dsimp only
    induction selected generalizing q with
    | nil => rfl
    | cons s selected ih =>
      obtain ⟨hs, hkept⟩ := List.forall_mem_cons.mp kept
      obtain ⟨hp, hapart⟩ := List.forall_mem_cons.mp apart
      rw [List.foldlM_cons, List.foldlM_cons, addRootField_after built onSchema ρ hs hq hp]
      cases hstep : c.addRootField rootType q s with
      | error e => rfl
      | ok q' => exact ih (addRootField_names built onSchema hs hq hstep).1 hkept hapart

theorem addRoot_names {root : NodeId} (hq : c.schema.fresh ≤ q.fresh) {q' : Progress}
    (h : c.addRoot rootType q root = .ok q') :
    c.schema.fresh ≤ q'.fresh ∧ ∀ f ∈ q'.fields, f ∈ q.fields ∨ f.name ∈ c.rootNames root := by
  have standard : c.schema.Standard := (SchemaConfig.build_ok built).2.1
  unfold addRoot at h
  unfold rootNames
  split at h
  · rename_i selected hselected
    rw [hselected]
    refine foldlM_ok (fun done q' => c.schema.fresh ≤ q'.fresh ∧ ∀ f ∈ q'.fields,
      f ∈ q.fields ∨ f.name ∈ done.map (·.node.name)) h ⟨hq, fun f hf => .inl hf⟩ ?_
    intro done s rest q₁ q₂ hsplit ⟨hfresh, hnames⟩ hstep
    have hs : s ∈ selected := by
      rw [hsplit]
      simp
    obtain ⟨hfresh', hnames'⟩ :=
      addRootField_names built onSchema (expandRoot_kept standard onSchema hselected hs) hfresh hstep
    refine ⟨hfresh', fun f hf => ?_⟩
    rw [List.map_append, List.mem_append]
    rcases hnames' f hf with hf | hf
    · exact (hnames f hf).imp_right .inl
    · exact .inr (.inr (List.mem_singleton.mpr hf))
  · obtain ⟨hfresh, hfields⟩ := Progress.collect_ok h
    exact ⟨hfresh ▸ hq, fun f hf => .inl (hfields ▸ hf)⟩

end Planner

/-! ## Operations -/

/-- An operation that puts operations in a row: the errors as they are, and the root fields of each
under new numbers of the parameters from `low` on. -/
structure PlannedOperation.Joins (low : Nat) (op : PlannedOperation) (ops : List PlannedOperation) :
    Prop where
  kind : ∀ o ∈ ops, o.kind = op.kind
  errors : op.errors = ops.flatMap (·.errors)
  fields : ∃ parts, op.fields = parts.flatten ∧ List.Forall₂ (fun part (o : PlannedOperation) =>
    ∃ ρ : Renumbering low, part = o.fields.map (PlannedField.renumber ρ)) parts ops

namespace Planner

variable {config : SchemaConfig} {c : Planner} (built : config.build = .ok c.schema)
  (onSchema : c.tree.Over c.schema) (rootType : String)

/-- A planned operation from what its roots planned. -/
def Progress.finish (kind : OperationKind) (p : Progress) : PlannedOperation := ⟨kind, p.fields, p.errors⟩

include built onSchema

/-- Roots that are planned after others fail as the first of them that fails alone, and else add what
each of them adds alone. -/
theorem addRoots_joins {roots : List NodeId} {p : Progress} (hp : c.schema.fresh ≤ p.fresh)
    (apart : ∀ f ∈ p.fields, ∀ root ∈ roots, f.name ∉ c.rootNames root)
    (distinct : (roots.flatMap c.rootNames).Nodup) :
    match roots.mapM (c.addRoot rootType { fresh := c.schema.fresh }) with
    | .error e => roots.foldlM (c.addRoot rootType) p = .error e
    | .ok qs => ∃ p', roots.foldlM (c.addRoot rootType) p = .ok p' ∧
        p'.errors = p.errors ++ qs.flatMap (·.errors) ∧ ∃ parts, p'.fields = p.fields ++ parts.flatten ∧
          List.Forall₂ (fun part (q : Progress) => ∃ ρ : Renumbering c.schema.fresh,
            part = q.fields.map (PlannedField.renumber ρ)) parts qs := by
  induction roots generalizing p with
  | nil => exact ⟨p, rfl, (List.append_nil _).symm, [], (List.append_nil _).symm, .nil⟩
  | cons root roots ih =>
    let ρ : Renumbering c.schema.fresh := .shift c.schema.fresh (p.fresh - c.schema.fresh)
    have start : p.after ρ { fresh := c.schema.fresh } = p := by
      have fresh : ρ c.schema.fresh = p.fresh := by
        rw [Renumbering.shift_low]
        exact Nat.add_sub_cancel' hp
      rw [Progress.after, fresh]
      simp
    have alone : c.addRoot rootType p root =
        (c.addRoot rootType { fresh := c.schema.fresh } root).map (p.after ρ) := by
      have after : c.addRoot rootType (p.after ρ { fresh := c.schema.fresh }) root = _ :=
        addRoot_after built onSchema ρ (Nat.le_refl _) fun f hf => apart f hf root List.mem_cons_self
      rwa [start] at after
    rw [List.mapM_cons, List.foldlM_cons, alone]
    cases hq : c.addRoot rootType { fresh := c.schema.fresh } root with
    | error e => rfl
    | ok q =>
      rw [List.flatMap_cons, List.nodup_append] at distinct
      obtain ⟨-, distinct, disjoint⟩ := distinct
      have added : c.addRoot rootType p root = .ok (p.after ρ q) := by
        rw [alone, hq]
        rfl
      have later := addRoot_names built onSchema hp added
      have rest := ih later.1 (fun f hf other hother => ?_) distinct
      · show match (do
            let qs ← roots.mapM (c.addRoot rootType { fresh := c.schema.fresh })
            pure (q :: qs) : Except PlanError (List Progress)) with
          | .error e => roots.foldlM (c.addRoot rootType) (p.after ρ q) = .error e
          | .ok qs => _
        revert rest
        cases roots.mapM (c.addRoot rootType { fresh := c.schema.fresh }) with
        | error e => exact id
        | ok qs =>
          rintro ⟨p', hfold, herrors, parts, hfields, hparts⟩
          refine ⟨p', hfold, ?_, q.fields.map (PlannedField.renumber ρ) :: parts, ?_,
            .cons ⟨ρ, rfl⟩ hparts⟩
          · rw [herrors, Progress.after, List.flatMap_cons, List.append_assoc]
          · rw [hfields, Progress.after, List.flatten_cons, List.append_assoc]
      · rcases later.2 f hf with hf | hf
        · exact apart f hf other (List.mem_cons_of_mem _ hother)
        · exact fun hm => disjoint _ hf _ (List.mem_flatMap.mpr ⟨other, hother, hm⟩) rfl

end Planner

/-- What the request of one of the selections plans, with the same fragments. -/
def Planner.planOnly (c : Planner) (request : Request) (s : SelectionRequest) :
    Except PlanError PlannedOperation := do
  let tree ← (request.only s).build c.schema
  (c.withTree tree).plan

/-- Root selections are planned in isolation. The request of each of them has a tree. The operation
fails exactly if one of them fails alone, with the error of the first that does; else its errors and, up
to the numbers of parameters, its fields are those that the selections have alone, in a row. -/
theorem Planner.plan_by_roots {config : SchemaConfig} {c : Planner} {request : Request}
    (built : config.build = .ok c.schema) (requested : request.build c.schema = .ok c.tree)
    (distinct : (c.rootSelected.map (·.node.name)).Nodup) :
    (∀ s ∈ request.selections, ∃ tree, (request.only s).build c.schema = .ok tree) ∧
      (∀ e, c.plan = .error e ↔ ∃ before s after, request.selections = before ++ s :: after ∧
        (∀ b ∈ before, ∃ o, c.planOnly request b = .ok o) ∧ c.planOnly request s = .error e) ∧
      ∀ op, c.plan = .ok op → ∃ ops,
        List.Forall₂ (fun s o => c.planOnly request s = .ok o) request.selections ops ∧
          op.Joins c.schema.fresh ops := by
  have onSchema := Request.build_over (SchemaConfig.indexed built) requested
  have standard : c.schema.Standard := (SchemaConfig.build_ok built).2.1
  obtain ⟨rootType, hroot⟩ := Request.build_rootType requested
  have stands := Request.build_roots requested
  refine ⟨fun s hs => ?_, ?_⟩
  · obtain ⟨root, -, tree, -, -, hbuild, -⟩ := exists_of_forall₂ stands.flip hs
    exact ⟨tree, hbuild⟩
  -- what a selection plans alone is what its root adds to nothing
  have alone : request.selections.mapM (c.planOnly request) =
      (c.tree.roots.mapM (c.addRoot rootType { fresh := c.schema.fresh })).map
        (List.map (Progress.finish c.tree.kind)) := by
    refine mapM_forall₂ (stands.imp ?_)
    rintro s root ⟨tree, φ, root', hbuild, at_⟩
    have onSchema' : tree.Over c.schema := Request.build_over (SchemaConfig.indexed built) hbuild
    unfold planOnly
    rw [hbuild]
    show (c.withTree tree).plan = _
    unfold plan
    rw [show (c.withTree tree).tree.kind = c.tree.kind from at_.kind,
      show (c.withTree tree).schema.rootType c.tree.kind = some rootType from hroot,
      show (c.withTree tree).tree.roots = [root'] from at_.roots, ← at_.place,
      addRoot_move standard at_.embeds at_.ordered onSchema' rootType _ at_.inside]
    dsimp only
    rw [List.foldlM_cons]
    show ((c.withTree tree).addRoot rootType { fresh := c.schema.fresh } root' >>= _) >>= _ = _
    cases (c.withTree tree).addRoot rootType { fresh := c.schema.fresh } root' <;> rfl
  have names : (c.tree.roots.flatMap c.rootNames).Nodup := by
    unfold rootSelected at distinct
    rw [List.map_flatMap] at distinct
    exact distinct
  have joins := addRoots_joins built onSchema rootType (p := { fresh := c.schema.fresh })
    (Nat.le_refl _) nofun names
  have run : c.plan = (c.tree.roots.foldlM (c.addRoot rootType) { fresh := c.schema.fresh }).map
      (Progress.finish c.tree.kind) := by
    unfold plan
    rw [hroot]
    dsimp only
    cases c.tree.roots.foldlM (c.addRoot rootType) { fresh := c.schema.fresh } <;> rfl
  rw [run]
  revert joins alone
  cases c.tree.roots.mapM (c.addRoot rootType { fresh := c.schema.fresh }) with
  | error e =>
    intro alone joins
    dsimp only at joins
    rw [joins]
    refine ⟨fun e' => ?_, nofun⟩
    rw [← mapM_error, alone]
    simp [Except.map]
  | ok qs =>
    rintro alone ⟨p, hfold, herrors, parts, hfields, hparts⟩
    rw [hfold]
    refine ⟨fun e => ?_, fun op hop => ⟨qs.map (Progress.finish c.tree.kind), mapM_ok alone, ?_⟩⟩
    · rw [← mapM_error, alone]
      exact ⟨nofun, nofun⟩
    · cases hop
      refine ⟨?_, ?_, parts, hfields, List.forall₂_map_right_iff.mpr hparts⟩
      · intro o ho
        obtain ⟨q, -, rfl⟩ := List.mem_map.mp ho
        rfl
      · rw [List.flatMap_map]
        exact herrors

namespace Zeros

/-- The zero under two names, once with an argument that it does not have. -/
def twice : Request where
  operation := .query
  selections :=
    [{ select "zero" [select "name" []] with outputName := some "first", arguments := [("of", .null)] },
      { select "zero" [select "negated" [select "name" []]] with outputName := some "second" }]
  fragments := []

/-- The request, to be planned in two passes. -/
def twicePlanner : Planner :=
  { planner with
    tree := okOf (twice.build schema) (by decide +kernel)
    options := {} }

end Zeros

open Zeros in
theorem plan_by_roots_twice : ∃ op ops, twicePlanner.plan = .ok op ∧
    op.errors.map (·.field) = ["first"] ∧ op.fields.map (·.name) = ["second"] ∧
      List.Forall₂ (fun s o => twicePlanner.planOnly twice s = .ok o) twice.selections ops ∧
        op.Joins schema.fresh ops := by
  have built : config.build = .ok schema := eq_okOf config.build (by decide +kernel)
  obtain ⟨-, -, joins⟩ := Planner.plan_by_roots (c := twicePlanner) built
    (eq_okOf (twice.build schema) (by decide +kernel)) (by decide +kernel)
  have planned := eq_okOf twicePlanner.plan (by decide +kernel)
  obtain ⟨ops, hops, hjoins⟩ := joins _ planned
  exact ⟨_, ops, planned, by decide +kernel, by decide +kernel, hops, hjoins⟩

end FieldPlan
