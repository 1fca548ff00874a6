import FieldPlan.Proofs.Planning.Failing
import FieldPlan.Proofs.Planning.Shaping
import FieldPlan.Proofs.Selection.Embedding
import FieldPlan.Proofs.Selection.Leaves

/-!
# The depth of selections

* `Planner.Nests` : chains of kept fields, each the first of its name in the one above;
* `Planner.Unfolds` : what has been seen of a field that was planned;
* `Planner.planNode_unfolds` : planning a node sees all that is nested in it;
* `Planner.depth_bounded` : planning ends, and no root field is planned that nests too deeply or in which
  a fragment spreads itself.
-/

namespace FieldPlan

variable {c : Planner}

/-! ## Nested fields -/

/-- The first field of its name among fields. -/
def Selected.FirstIn (s : Selected) (ss : List Selected) : Prop :=
  ss.find? (fun b => b.node.name == s.node.name) = some s

/-- A field that is first among some and one more is first among these, or it is the new one. -/
theorem Selected.FirstIn.concat {s a : Selected} {ss : List Selected} (h : s.FirstIn (ss ++ [a])) :
    s.FirstIn ss ∨ s = a ∧ ∀ b ∈ ss, b.node.name ≠ a.node.name := by
  unfold FirstIn at h ⊢
  rw [List.find?_append] at h
  cases hf : ss.find? (fun b => b.node.name == s.node.name) with
  | some b =>
    rw [hf] at h
    exact .inl h
  | none =>
    rw [hf, Option.none_or] at h
    right
    obtain rfl : a = s := List.mem_singleton.mp (List.mem_of_find?_eq_some h) ▸ rfl
    refine ⟨rfl, fun b hb same => ?_⟩
    exact List.find?_eq_none.mp hf b hb (by simpa using same)

namespace Planner

/-- An expression of a field's own value that its children are planned against: the value itself, or the
items of a list. -/
inductive Opens (c : Planner) (t : Target) (frame : Frame) : Expr → Prop
  | object {base : Base} {e : Expr} {item : Option Param} {state s₁ s₂ : PlanState} :
    t.field.shape = .object → c.resolveBase t frame state = .ok (some base, s₁) →
    preSelection t (c.site t base frame) base.expr none s₁ = .ok ((e, item), s₂) → Opens c t frame e
  | list {base : Base} {e : Expr} {element : Ty} {item : Param} {changed : Option Param}
    {state s₁ s₂ s₃ : PlanState} : t.field.shape = .list →
    c.resolveBase t frame state = .ok (some base, s₁) → base.expr.ty.element? = some element →
    draw (Fresh.param t.name element) s₁ = .ok (item, s₂) →
    preSelection t (c.site t base frame) base.expr (some item) s₂ = .ok ((e, changed), s₃) →
    Opens c t frame (.param (changed.getD item))

/-- Where the planning of a root field comes to: to the field, over its input, and from a field to those
in it. -/
inductive Comes (c : Planner) (root : Selected) : Target → Frame → Prop
  | root {input : Param} {frame : Frame} : frame.isRoot = true →
    Comes c root ⟨root, .param input, [], [root.node.name]⟩ frame
  | child {t : Target} {frame : Frame} {s : Selected} {context : Expr} : Comes c root t frame →
    c.Opens t frame context →
    Comes c root ⟨s, context, t.id :: t.lineage, t.path.child s.node.name⟩
      { frame with isRoot := false }

/-- A directive prunes the expression that a field has where planning comes to it below some nodes. -/
def Hides (c : Planner) (root : Selected) (above : List NodeId) (s : Selected) : Prop :=
  ∃ t frame state state', c.Comes root t frame ∧ t.toSelected = s ∧ t.lineage = above ∧
    c.resolveBase t frame state = .ok (none, state')

/-- A chain of fields that no directive prunes, each the first of its name in the one above; the numbers
of those above the last one, the nearest first. -/
inductive Nests (c : Planner) (root : Selected) : List NodeId → Selected → Prop
  | root : ¬c.Hides root [] root → Nests c root [] root
  | child {above : List NodeId} {s s' : Selected} {ss : List Selected} : Nests c root above s →
    c.Flattens s.node.children ss → s'.FirstIn ss → ¬c.Hides root (s.id :: above) s' →
    Nests c root (s.id :: above) s'

/-- All fields that are first of their names are seen through so many levels. -/
inductive Unfolds (c : Planner) (root : Selected) : Nat → List NodeId → Selected → Prop
  | hidden {depth : Nat} {above : List NodeId} {s : Selected} : c.Hides root above s →
    Unfolds c root (depth + 1) above s
  | opened {depth : Nat} {above : List NodeId} {s : Selected} {ss : List Selected} :
    c.Flattens s.node.children ss → (∀ s', s'.FirstIn ss → Unfolds c root depth (s.id :: above) s') →
    Unfolds c root (depth + 1) above s

theorem Nests.not_hides {root s : Selected} {above : List NodeId} (h : c.Nests root above s) :
    ¬c.Hides root above s := by
  cases h with
  | root hs => exact hs
  | child _ _ _ hs => exact hs

theorem Unfolds.nests {root s : Selected} {depth : Nat} {above : List NodeId}
    (h : c.Unfolds root depth [] root) (n : c.Nests root above s) :
    ∃ rest, depth = rest + above.length ∧ c.Unfolds root rest above s := by
  induction n with
  | root _ => exact ⟨depth, rfl, h⟩
  | child nested flat first _ ih =>
    obtain ⟨rest, hrest, unfolds⟩ := ih
    cases unfolds with
    | hidden hs => exact absurd hs nested.not_hides
    | opened flat' each =>
      rw [flat.unique flat'] at first
      exact ⟨_, by rw [List.length_cons]; omega, each _ first⟩

theorem Unfolds.bounds {root s : Selected} {depth : Nat} {above : List NodeId}
    (h : c.Unfolds root depth [] root) (n : c.Nests root above s) :
    above.length < depth ∧ ∀ name, ¬c.Reenters s.node.children name := by
  obtain ⟨rest, hrest, unfolds⟩ := h.nests n
  cases unfolds with
  | hidden hs => exact absurd hs n.not_hides
  | opened flat _ => exact ⟨by omega, flat.not_reenters⟩

/-! ## What planning sees -/

variable {t : Target} {frame : Frame} {state state' : PlanState}

/-- A field's own value is pruned by one of its directives. -/
theorem resolveBase_none (h : c.resolveBase t frame state = .ok (none, state')) :
    ∃ e s s', c.directExpr t.path e t.node.directives s = .ok (none, s') := by
  unfold resolveBase at h
  obtain ⟨arguments, s₁, -, h⟩ := run_bind_ok.mp h
  obtain ⟨⟨e, materialized⟩, s₂, -, h⟩ := run_bind_ok.mp h
  obtain ⟨e', s₃, -, h⟩ := run_bind_ok.mp h
  obtain ⟨r, s₄, hd, h⟩ := run_bind_ok.mp h
  cases r with
  | some e'' => cases h
  | none => exact ⟨_, _, _, hd⟩

theorem not_hides_of_bare {root s : Selected} {above : List NodeId} (h : s.node.directives = []) :
    ¬c.Hides root above s := by
  rintro ⟨t, frame, state, state', -, rfl, -, pruned⟩
  obtain ⟨e, s₁, s₂, hd⟩ := resolveBase_none pruned
  rw [h] at hd
  cases hd

/-- A node in which no field backed by a service is selected, where the shape pass comes to it. -/
def Whole (c : Planner) (pass : Pass) (id : NodeId) : Prop :=
  pass = .shape → ∀ next n, Relation.ReflTransGen c.tree.Leads id next → c.tree.node? next = some n →
    n.hasServices = false

/-- A pass takes up the fields that the children of a node stand for. -/
theorem expand_whole (inPlace : c.schema.InPlace) {s : Selected} (hn : c.tree.node? s.id = some s.node)
    (hs : s.node.selects = .field s.field) {pass : Pass} (whole : c.Whole pass s.id) {path : Path}
    {parts : List Contribution} (h : c.expand pass path s.node.children = .ok parts) :
    ∃ ss, c.Flattens s.node.children ss ∧ parts = ss.map .node ∧ ∀ a ∈ ss, c.Whole pass a.id := by
  have below : ∀ {ss}, c.Flattens s.node.children ss → ∀ a ∈ ss, c.Whole pass a.id := by
    intro ss flat a ha hp next n leads
    obtain ⟨child, hchild, leads'⟩ := flat.leads inPlace a ha
    refine whole hp next n (.head (.child hn ?_ hchild) (leads'.trans leads))
    rw [Node.spread?, hs]
  cases pass with
  | services =>
    obtain ⟨ss, flat, rfl⟩ := expand_services_iff.mp h
    exact ⟨ss, flat, rfl, below flat⟩
  | shape =>
    rw [expand_shape] at h
    cases hall : c.expand .services path s.node.children with
    | error e =>
      rw [hall] at h
      cases h
    | ok all =>
      rw [hall] at h
      cases h
      obtain ⟨ss, flat, rfl⟩ := expand_services_iff.mp hall
      refine ⟨ss, flat, ?_, below flat⟩
      show (ss.map Contribution.node).flatMap Contribution.shaped = _
      rw [List.flatMap_map, List.map_eq_flatMap]
      refine List.flatMap_congr fun a ha => if_neg ?_
      obtain ⟨hna, hsa⟩ := flat.selects a ha
      have unserved := below flat a ha rfl a.id a.node .refl hna
      simpa [Node.hasServices, Node.field?, hsa] using unserved

/-- Each field that is first of its name is planned. -/
theorem planned_of_first {planChild : PlanChild} {context : Expr} {ss : List Selected}
    {children : Children}
    (h : (ss.map Contribution.node).foldlM (addContribution planChild t context frame) [] state =
      .ok (children, state')) :
    ∀ a, a.FirstIn ss → ∃ s r, planChild a context (t.id :: t.lineage) (t.path.child a.node.name)
      frame s = .ok r := by
  rw [List.foldlM_map] at h
  refine (run_foldlM_ok (fun done (children : Children) _ =>
    (∀ a, children.contains a = true → ∃ b ∈ done, b.node.name = a) ∧
    ∀ a : Selected, a.FirstIn done → ∃ s r, planChild a context (t.id :: t.lineage)
      (t.path.child a.node.name) frame s = .ok r) h ?_ ?_).2
  · constructor
    · intro a ha
      cases ha
    · intro a first
      cases first
  intro done b rest known s known' s' _ ⟨names, planned⟩ hstep
  unfold addContribution at hstep
  dsimp only at hstep
  split at hstep
  · rename_i taken
    obtain ⟨rfl, -⟩ := run_pure_ok.mp hstep
    obtain ⟨b', hb', same⟩ := names _ taken
    refine ⟨fun a ha => ?_, fun a first => ?_⟩
    · obtain ⟨x, hx, hname⟩ := names a ha
      exact ⟨x, List.mem_append_left _ hx, hname⟩
    · obtain old | ⟨rfl, new⟩ := first.concat
      · exact planned a old
      · exact absurd same (new b' hb')
  · obtain ⟨r, s₁, hr, hstep⟩ := run_bind_ok.mp hstep
    have inserted : ∀ a, Dict.contains known' a = true →
        ∃ x ∈ done ++ [b], x.node.name = a := by
      intro a ha
      cases r with
      | none =>
        obtain ⟨rfl, -⟩ := run_pure_ok.mp hstep
        obtain ⟨x, hx, hname⟩ := names a ha
        exact ⟨x, List.mem_append_left _ hx, hname⟩
      | some e =>
        obtain ⟨rfl, -⟩ := run_pure_ok.mp hstep
        rw [Dict.contains_iff, Dict.mem_keys_insert] at ha
        obtain ha | rfl := ha
        · obtain ⟨x, hx, hname⟩ := names a ((Dict.contains_iff _ _).mpr ha)
          exact ⟨x, List.mem_append_left _ hx, hname⟩
        · exact ⟨b, List.mem_append_right _ List.mem_cons_self, rfl⟩
    refine ⟨inserted, fun a first => ?_⟩
    obtain old | ⟨rfl, -⟩ := first.concat
    · exact planned a old
    · exact ⟨_, _, hr⟩

/-- Planning a node sees all that is nested in it, unless the shape pass leaves some of it out. -/
theorem planNode_unfolds (inPlace : c.schema.InPlace) (leafy : c.tree.Leafy) {root : Selected}
    {depth : Nat} (hn : c.tree.node? t.id = some t.node) (hs : t.node.selects = .field t.field)
    (comes : c.Comes root t frame) (whole : c.Whole frame.pass t.id) {r : Option Expr × PlanState}
    (h : c.planNode depth t.toSelected t.context t.lineage t.path frame state = .ok r) :
    c.Unfolds root depth t.lineage t.toSelected := by
  induction depth generalizing t frame state r with
  | zero => cases h
  | succ depth ih =>
    have children : ∀ {context state state' children}, c.Opens t frame context →
        c.planChildren (c.planNode depth) t context frame state = .ok (children, state') →
          c.Unfolds root (depth + 1) t.lineage t.toSelected := by
      intro context state state' children opens h
      obtain ⟨parts, s₁, hlift, hfold⟩ := run_bind_ok.mp h
      obtain ⟨hexpand, -⟩ := run_lift_ok.mp hlift
      obtain ⟨ss, flat, rfl, wholes⟩ := expand_whole inPlace hn hs whole hexpand
      refine .opened flat fun a first => ?_
      have ha : a ∈ ss := List.mem_of_find?_eq_some first
      obtain ⟨hna, hsa⟩ := flat.selects a ha
      obtain ⟨state'', r', planned⟩ := planned_of_first hfold a first
      exact ih (t := ⟨a, context, t.id :: t.lineage, t.path.child a.node.name⟩) hna hsa
        (comes.child opens) (wholes a ha) planned
    have hidden : ∀ {state state'}, c.resolveBase t frame state = .ok (none, state') →
        c.Unfolds root (depth + 1) t.lineage t.toSelected := fun pruned =>
      .hidden ⟨t, frame, _, _, comes, rfl, rfl, pruned⟩
    rw [planNode] at h
    unfold planField at h
    split at h
    · rename_i skipped
      obtain ⟨hpass, served⟩ := by simpa using skipped
      have unserved := whole hpass t.id t.node .refl hn
      rw [Node.hasServices, Node.field?, hs] at unserved
      exact absurd served (by simpa using unserved)
    · dsimp only at h
      cases hshape : t.field.shape with
      | scalar =>
        have none : t.node.children = [] := leafy t.id t.node t.field hn hs hshape
        have flat : c.Flattens t.node.children [] := none ▸ .nil
        apply Unfolds.opened flat
        intro a first
        cases first
      | object =>
        rw [hshape] at h
        obtain ⟨base, s₁, hbase, h⟩ := run_bind_ok.mp h
        cases base with
        | none => exact hidden hbase
        | some base =>
          obtain ⟨⟨e, item⟩, s₂, hpre, h⟩ := run_bind_ok.mp h
          obtain ⟨fields, s₃, hchildren, -⟩ := run_bind_ok.mp h
          exact children (.object hshape hbase hpre) hchildren
      | list =>
        rw [hshape] at h
        obtain ⟨base, s₁, hbase, h⟩ := run_bind_ok.mp h
        cases base with
        | none => exact hidden hbase
        | some base =>
          dsimp only at h
          cases hel : base.expr.ty.element? with
          | none =>
            rw [hel] at h
            cases h
          | some element =>
            rw [hel] at h
            obtain ⟨item, s₂, hitem, h⟩ := run_bind_ok.mp h
            obtain ⟨⟨e, changed⟩, s₃, hpre, h⟩ := run_bind_ok.mp h
            obtain ⟨fields, s₄, hchildren, -⟩ := run_bind_ok.mp h
            exact children (.list hshape hbase hel hitem hpre) hchildren

/-! ## Operations -/

/-- A root field that is planned has been seen through all its levels. -/
theorem planRoot_unfolds (inPlace : c.schema.InPlace) (leafy : c.tree.Leafy) (forward : c.tree.Forward)
    {s : Selected} (hn : c.tree.node? s.id = some s.node) (hs : s.node.selects = .field s.field)
    {rootType : String} {n : Nat} {r : PlannedField × Nat} (h : c.planRoot rootType s n = .ok r) :
    c.Unfolds s (c.options.maxDepth + 1) [] s := by
  have pass : ∀ {input : Param} {frame : Frame} {n : Nat} {r : Option Plan × Nat},
      frame.isRoot = true → c.Whole frame.pass s.id → c.planPass s input frame n = .ok r →
      c.Unfolds s (c.options.maxDepth + 1) [] s := by
    intro input frame n r isRoot whole h
    obtain ⟨planned, hplanned, -⟩ := bind_ok.mp h
    exact planNode_unfolds (t := ⟨s, .param input, [], [s.node.name]⟩) inPlace leafy hn hs
      (.root isRoot) whole hplanned
  have services : c.Whole .services s.id := nofun
  unfold planRoot at h
  obtain ⟨data, n₁, -, h⟩ := run_bind_ok.mp h
  split at h
  · obtain ⟨plan, n₂, hplan, -⟩ := run_bind_ok.mp h
    exact pass rfl services hplan
  · obtain ⟨shape, n₂, hshape, h⟩ := run_bind_ok.mp h
    split at h
    · obtain ⟨service, n₃, hservice, -⟩ := run_bind_ok.mp h
      cases shape with
      | none => exact pass rfl services hservice
      | some shape =>
        obtain ⟨materialized, n₄, -, hservice⟩ := run_bind_ok.mp hservice
        exact pass rfl services hservice
    · rename_i unserved
      have unserved : c.tree.hasAnyServices s.id = false := by simpa using unserved
      have whole : c.Whole .shape s.id := fun _ next n leads hnext =>
        SelectionTree.not_hasServices forward unserved List.mem_cons_self leads hnext
      exact pass rfl whole hshape

/-- A root field that was planned for a selected one, which has been seen through all its levels, and
errors that do not end the operation. -/
structure Surveyed (c : Planner) (p : Progress) : Prop where
  fields : ∀ field ∈ p.fields, ∃ s ∈ c.rootSelected, s.node.name = field.name ∧
    ∃ rootType n n', c.planRoot rootType s n = .ok (field, n')
  errors : ∀ e ∈ p.errors, e.error.isFatal = false

theorem Surveyed.collect {p p' : Progress} (h : c.Surveyed p) {field : String} {e : PlanError}
    (hc : p.collect field e = .ok p') : c.Surveyed p' := by
  unfold Progress.collect at hc
  split at hc
  · cases hc
  · rename_i passing
    cases hc
    refine ⟨h.fields, List.forall_mem_append.mpr ⟨h.errors, ?_⟩⟩
    intro e' he'
    cases List.mem_singleton.mp he'
    simpa using passing

theorem planRoot_name {rootType : String} {s : Selected} {n : Nat} {r : PlannedField × Nat}
    (h : c.planRoot rootType s n = .ok r) : r.1.name = s.node.name := by
  unfold planRoot at h
  obtain ⟨data, n₁, -, h⟩ := run_bind_ok.mp h
  split at h
  · obtain ⟨plan, n₂, -, h⟩ := run_bind_ok.mp h
    cases h
    rfl
  · obtain ⟨shape, n₂, -, h⟩ := run_bind_ok.mp h
    split at h
    · obtain ⟨service, n₃, -, h⟩ := run_bind_ok.mp h
      cases h
      rfl
    · cases h
      rfl

/-- What an operation plans it plans for selected root fields. -/
theorem plan_surveyed {op : PlannedOperation} (h : c.plan = .ok op) :
    c.Surveyed ⟨0, op.fields, op.errors⟩ := by
  unfold plan at h
  split at h
  · cases h
  · rename_i rootType _
    obtain ⟨p, hfold, h⟩ := bind_ok.mp h
    cases h
    have surveyed : c.Surveyed p := by
      refine foldlM_ok (fun _ p => c.Surveyed p) hfold ⟨nofun, nofun⟩ ?_
      intro done root rest p p' hroots surveyed hadd
      unfold addRoot at hadd
      split at hadd
      · rename_i ss hss
        refine foldlM_ok (fun _ p => c.Surveyed p) hadd surveyed ?_
        intro done' s rest' p p' hsplit surveyed hadd
        have selected : s ∈ c.rootSelected := by
          unfold rootSelected
          refine List.mem_flatMap.mpr ⟨root, by simp [hroots], ?_⟩
          rw [hss, show ss = done' ++ s :: rest' from hsplit]
          simp [Except.toOption]
        unfold addRootField at hadd
        split at hadd
        · cases hadd
          exact surveyed
        · split at hadd
          · rename_i field fresh hplan
            cases hadd
            refine ⟨List.forall_mem_append.mpr ⟨surveyed.fields, ?_⟩, surveyed.errors⟩
            intro field' hfield
            cases List.mem_singleton.mp hfield
            exact ⟨s, selected, (planRoot_name hplan).symm, rootType, _, _, hplan⟩
          · exact surveyed.collect hadd
      · exact surveyed.collect hadd
    exact ⟨surveyed.fields, surveyed.errors⟩

theorem rootSelected_selects {s : Selected} (h : s ∈ c.rootSelected) :
    c.tree.node? s.id = some s.node ∧ s.node.selects = .field s.field := by
  obtain ⟨root, -, ss, flat, hs⟩ := rootSelected_flattens h
  exact flat.selects s hs

/-- Where directives leave nodes in their places, planning an operation ends: no search is cut short, and
no expansion goes on forever. A root field is planned only if no chain of kept fields, each the first
of its name, nests deeper in it than allowed, and none leads to selections in which a fragment spreads
itself. -/
theorem depth_bounded {request : Request} (built : request.build c.schema = .ok c.tree)
    (inPlace : c.schema.InPlace) :
    (∀ depth (ids : List NodeId), c.tree.searchDepth ≤ depth →
      ids.foldlM (c.tree.search depth) [] = ids.foldlM (c.tree.search c.tree.searchDepth) []) ∧
    (∀ e, c.plan = .error e → e.fault ≠ .endlessExpansion) ∧
    ∀ op, c.plan = .ok op → (∀ e ∈ op.errors, e.error.fault ≠ .endlessExpansion) ∧
      ∀ field ∈ op.fields, ∃ s ∈ c.rootSelected, s.node.name = field.name ∧
        (∃ rootType n n', c.planRoot rootType s n = .ok (field, n')) ∧
        ∀ above s', c.Nests s above s' → above.length ≤ c.options.maxDepth ∧
          ∀ name, ¬c.Reenters s'.node.children name := by
  have ordered := Request.build_ordered built
  have leafy := Request.build_leafy built
  have expands : ∀ pass path ids, Fails (·.fault.Plain) (c.expand pass path ids) :=
    fun pass path ids e => expand_ends inPlace ordered
  refine ⟨fun depth ids enough => ordered.search_deeper enough ids [], plan_ends expands,
    fun op planned => ?_⟩
  have surveyed := plan_surveyed planned
  refine ⟨fun e he endless => ?_, fun field hfield => ?_⟩
  · have passing := surveyed.errors e he
    unfold PlanError.isFatal PlanError.kind at passing
    rw [endless] at passing
    simp [PlanFault.kind] at passing
  · obtain ⟨s, hs, name, rootType, n, n', hplan⟩ := surveyed.fields field hfield
    obtain ⟨hn, hselects⟩ := rootSelected_selects hs
    have unfolds := planRoot_unfolds inPlace leafy ordered.forward hn hselects hplan
    refine ⟨s, hs, name, ⟨rootType, n, n', hplan⟩, fun above s' nests => ?_⟩
    obtain ⟨bound, none⟩ := unfolds.bounds nests
    exact ⟨by omega, none⟩

/-! ## Chains that are followed -/

/-- The fields that the children of a node stand for. -/
def opened (c : Planner) (s : Selected) : List Selected :=
  ((c.expand .services [] s.node.children).toOption.getD []).filterMap fun
    | .node s => some s
    | .extracted _ _ => none

theorem flattens_opened {s : Selected} (h : (c.expand .services [] s.node.children).isOk = true) :
    c.Flattens s.node.children (c.opened s) := by
  obtain ⟨ss, flat, parts⟩ := expand_services_iff.mp (eq_okOf _ h)
  have same : c.opened s = ss := by
    unfold opened
    rw [eq_okOf _ h, parts]
    exact (List.filterMap_map ..).trans List.filterMap_some
  exact same ▸ flat

/-- A chain goes on to the first field that is selected, if no directive is written on that. -/
theorem Nests.down {root s : Selected} {above : List NodeId} (h : c.Nests root above s)
    (expands : (c.expand .services [] s.node.children).isOk = true) (some : c.opened s ≠ [])
    (bare : ((c.opened s).head some).node.directives.isEmpty = true) :
    c.Nests root (s.id :: above) ((c.opened s).head some) := by
  refine h.child (flattens_opened expands) ?_ (not_hides_of_bare (List.isEmpty_iff.mp bare))
  generalize c.opened s = ss at some
  cases ss with
  | nil => exact absurd rfl some
  | cons s ss => simp [Selected.FirstIn]

end Planner

namespace Zeros

/-- Selections of a number beside a fragment that spreads itself below a field. -/
def again (selections : List SelectionRequest) : Request where
  operation := .query
  selections := [select "zero" (selections ++ [spread "Again"])]
  fragments := [⟨"Again", "Number", [select "negated" [spread "Again"]]⟩]

/-- A planner to a depth of two fields. -/
def shallow (tree : SelectionTree) : Planner :=
  { planner with tree := tree, options := { separately := false, maxDepth := 2 } }

/-- The fragment is spread after a field of the same name, so the field in it is not the first one. -/
def near : Planner := shallow (okOf ((again [select "negated" [select "name" []]]).build schema)
  (by decide +kernel))

/-- The fragment alone nests in itself. -/
def far : Planner := shallow (okOf ((again []).build schema) (by decide +kernel))

def nearOp : PlannedOperation := okOf near.plan (by decide +kernel)

def nearZero : Selected := near.rootSelected.head (by decide +kernel)

/-- The number in a tree that is too deep. -/
def farZero : Selected := far.rootSelected.head (by decide +kernel)

theorem near_nests : ∃ above s, near.Nests nearZero above s ∧ above.length = 2 := by
  have start : near.Nests nearZero [] nearZero :=
    .root (Planner.not_hides_of_bare (List.isEmpty_iff.mp (by decide +kernel)))
  have one := start.down (by decide +kernel) (by decide +kernel) (by decide +kernel)
  exact ⟨_, _, one.down (by decide +kernel) (by decide +kernel) (by decide +kernel), rfl⟩

theorem far_nests : ∃ above s, far.Nests farZero above s ∧ above.length = 3 := by
  have start : far.Nests farZero [] farZero :=
    .root (Planner.not_hides_of_bare (List.isEmpty_iff.mp (by decide +kernel)))
  have one := start.down (by decide +kernel) (by decide +kernel) (by decide +kernel)
  have two := one.down (by decide +kernel) (by decide +kernel) (by decide +kernel)
  exact ⟨_, _, two.down (by decide +kernel) (by decide +kernel) (by decide +kernel), rfl⟩

end Zeros

open Zeros in
/-- With a fragment that spreads itself below a field, a number is planned whose fields nest as deeply as
allowed, and no operation with one whose fields nest deeper. -/
theorem depth_bounded_again : near.plan = .ok nearOp ∧ nearOp.fields.map (·.name) = ["zero"] ∧
    (∃ above s, near.Nests nearZero above s ∧ above.length = 2) ∧
    (∀ above s, near.Nests nearZero above s → above.length ≤ 2 ∧
      ∀ name, ¬near.Reenters s.node.children name) ∧
    (∃ above s, far.Nests farZero above s ∧ above.length = 3) ∧ far.plan.isOk = false := by
  have built : config.build = .ok schema := eq_okOf config.build (by decide +kernel)
  obtain ⟨-, standard, -⟩ := SchemaConfig.build_ok built
  obtain ⟨-, -, bounded⟩ := Planner.depth_bounded (c := near)
    (eq_okOf ((again [select "negated" [select "name" []]]).build schema) (by decide +kernel))
    (Schema.Standard.inPlace standard)
  have planned : near.plan = .ok nearOp := eq_okOf near.plan _
  have names : nearOp.fields.map (·.name) = ["zero"] := by decide +kernel
  obtain ⟨field, hfield, -⟩ := List.mem_map.mp (names ▸ List.mem_cons_self)
  obtain ⟨s, hs, -, -, bound⟩ := (bounded nearOp planned).2 field hfield
  have one : near.rootSelected.length = 1 := by decide +kernel
  obtain ⟨only, honly⟩ := List.length_eq_one_iff.mp one
  obtain rfl : s = nearZero := by
    unfold nearZero
    simpa [honly] using hs
  exact ⟨planned, names, near_nests, bound, far_nests, by decide +kernel⟩

namespace Detour

/-- A directive that lets another node, of the number `to`, stand for the one that it is written on. -/
def goto : Directive where
  name := "goto"
  description := ""
  locations := [.field]
  processField id arguments := pure (some (((arguments.find? "to").bind (·.toNat?)).getD id))

/-- The steps to a schema of pages whose next page comes from a service. -/
def steps : List SchemaStep :=
  [.directive goto, .type "Query" none, .type "Page" none,
    .field "Query" (.ofMember "page" (.entity "Page" true)),
    .field "Page" (.ofMember "id" (.scalar .id true)),
    .field "Page"
      { name := "next", ty := .entity "Page" true, resolve := .service "pages" "after" [.member ["id"]] }]

def schema : Schema :=
  okOf ((SchemaBuilder.new "Query" none 0).run steps).2.build (by decide +kernel)

/-- A page in which the next pages of another selection, which is pruned, are selected. -/
def request : Request where
  operation := .query
  selections :=
    [Zeros.select "page"
      [{ Zeros.select "id" [] with directives := [⟨"goto", [("to", .int 3)]⟩] }],
    { Zeros.select "page" [Zeros.select "next" [Zeros.select "next" [Zeros.select "id" []]]] with
      directives := [⟨"skip", [("if", .bool true)]⟩] }]
  fragments := []

/-- The request, to be planned to a depth of one field. -/
def planner : Planner where
  schema := schema
  tree := okOf (request.build schema) (by decide +kernel)
  assignment := []
  authorizer := .all
  registered := none
  options := { maxDepth := 1 }

def op : PlannedOperation := okOf planner.plan (by decide +kernel)

def field : PlannedField := op.fields.head (by decide +kernel)

theorem mem_fields : field ∈ op.fields := List.head_mem _

def root : Selected := planner.rootSelected.head (by decide +kernel)

theorem built : request.build planner.schema = .ok planner.tree := by
  simp only [planner]
  exact eq_okOf _ _

theorem planned : planner.plan = .ok op := by
  unfold op
  exact eq_okOf planner.plan (by decide +kernel)

theorem nests : ∃ above s, planner.Nests root above s ∧ above.length = 2 := by
  have start : planner.Nests root [] root :=
    .root (Planner.not_hides_of_bare (List.isEmpty_iff.mp (by decide +kernel)))
  have one := start.down (by decide +kernel) (by decide +kernel) (by decide +kernel)
  exact ⟨_, _, one.down (by decide +kernel) (by decide +kernel) (by decide +kernel), rfl⟩

end Detour

open Detour in
theorem deep_detour_planned : ¬∀ (c : Planner) (request : Request),
    request.build c.schema = .ok c.tree → ∀ op, c.plan = .ok op → ∀ field ∈ op.fields,
      ∃ s ∈ c.rootSelected, s.node.name = field.name ∧
        ∀ above s', c.Nests s above s' → above.length ≤ c.options.maxDepth := by
  intro bounded
  obtain ⟨s, hs, -, bound⟩ := bounded planner request built op planned field mem_fields
  have one : planner.rootSelected.length = 1 := by decide +kernel
  obtain ⟨only, honly⟩ := List.length_eq_one_iff.mp one
  have hroot : s = root := by
    unfold root
    simpa [honly] using hs
  rw [hroot] at bound
  obtain ⟨above, s', deep, length⟩ := nests
  have shallow : 2 ≤ planner.options.maxDepth := length ▸ bound above s' deep
  exact absurd shallow (by decide +kernel)

end FieldPlan
