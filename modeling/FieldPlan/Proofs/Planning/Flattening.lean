import FieldPlan.Proofs.Planning.Expansion
import FieldPlan.Proofs.Selection.Search
import Mathlib.Data.List.Perm.Subperm

/-!
# Expansions are flattenings

What an expansion gives, told without its steps and without the fragments that it is in.

* `Planner.Flattens` : nodes with each kept fragment replaced in place by what it holds, and without
  what a directive prunes and what may not be seen;
* `Planner.Enters`, `Planner.Spreads`, `Planner.Reenters` : what the expansion of a node goes on to,
  and a fragment that is reached again in its own expansion;
* `Planner.Flattens.acc`, `Planner.Flattens.not_reenters` : where there is a flattening there is no such
  fragment;
* `Planner.expandNode_cases`, `Planner.expandKept` : what an expansion does at a node;
* `Planner.expand_services_iff` : expansions give flattenings, and where there is one they give it;
* `Planner.expand_shape` : expansions for the shape pass are those for the service pass, with the parts
  of service-backed fields in place of these.
-/

namespace FieldPlan

variable {c : Planner}

/-- A fault of an expansion that goes in circles. -/
def PlanFault.Circular : PlanFault → Prop
  | .cyclicFragment _ | .endlessExpansion => True
  | _ => False

/-! ## Flattenings -/

/-- What stands in place of a fragment: for a spread the selections of the fragment, for an inline
fragment its own. -/
def SelectionTree.contents? (t : SelectionTree) (n : Node) : Option (List NodeId) :=
  match n.selects with
  | .spread name => (t.fragments.find? name).map (·.children)
  | .inline => some n.children
  | .field _ => none

namespace Planner

def Prunes (c : Planner) (id : NodeId) : Prop :=
  ∃ written path, c.tree.node? id = some written ∧
    c.keep path written.location id written.directives = .ok none

/-- Directives keep a node, and another one, most often itself, stands for it then. -/
def KeepsAs (c : Planner) (id next : NodeId) (n : Node) : Prop :=
  c.tree.node? next = some n ∧ ∃ written path, c.tree.node? id = some written ∧
    c.keep path written.location id written.directives = .ok (some next)

/-- The fields that nodes stand for, in order and with repetitions. -/
inductive Flattens (c : Planner) : List NodeId → List Selected → Prop
  | nil : Flattens c [] []
  | pruned {id : NodeId} {ids : List NodeId} {ss : List Selected} :
    c.Prunes id → Flattens c ids ss → Flattens c (id :: ids) ss
  | hidden {id next : NodeId} {n : Node} {f : Field} {ids : List NodeId} {ss : List Selected} :
    c.KeepsAs id next n → n.selects = .field f → c.authorizer f = false → Flattens c ids ss →
    Flattens c (id :: ids) ss
  | seen {id next : NodeId} {n : Node} {f : Field} {ids : List NodeId} {ss : List Selected} :
    c.KeepsAs id next n → n.selects = .field f → c.authorizer f = true → Flattens c ids ss →
    Flattens c (id :: ids) (⟨next, n, f⟩ :: ss)
  | fragment {id next : NodeId} {n : Node} {held ids : List NodeId} {inner ss : List Selected} :
    c.KeepsAs id next n → c.tree.contents? n = some held → Flattens c held inner →
    Flattens c ids ss → Flattens c (id :: ids) (inner ++ ss)

/-- The expansion of a node goes on to another one. -/
def Enters (c : Planner) (id child : NodeId) : Prop :=
  ∃ next n held, c.KeepsAs id next n ∧ c.tree.contents? n = some held ∧ child ∈ held

/-- A node stands for the spread of a fragment. -/
def Spreads (c : Planner) (id : NodeId) (name : String) : Prop :=
  ∃ next n f, c.KeepsAs id next n ∧ n.selects = .spread name ∧ c.tree.fragments.find? name = some f

/-- In the expansion of nodes a fragment is spread inside its own expansion. -/
def Reenters (c : Planner) (ids : List NodeId) (name : String) : Prop :=
  ∃ id ∈ ids, ∃ outer inner, Relation.ReflTransGen c.Enters id outer ∧ c.Spreads outer name ∧
    Relation.TransGen c.Enters outer inner ∧ c.Spreads inner name

theorem Flattens.append {ids ids' : List NodeId} {ss ss' : List Selected} (h : c.Flattens ids ss)
    (h' : c.Flattens ids' ss') : c.Flattens (ids ++ ids') (ss ++ ss') := by
  induction h with
  | nil => exact h'
  | pruned hp _ ih => exact .pruned hp ih
  | hidden hk hf ha _ ih => exact .hidden hk hf ha ih
  | seen hk hf ha _ ih => exact .seen hk hf ha ih
  | fragment hk hc hi _ _ ih =>
    rw [List.append_assoc]
    exact .fragment hk hc hi ih

/-! ## Directives -/

theorem applyDirective_path {path path' : Path} {location : Location} {id : NodeId}
    {use : DirectiveUse} {r : Option NodeId} (h : c.applyDirective path location id use = .ok r) :
    c.applyDirective path' location id use = .ok r := by
  unfold applyDirective at h ⊢
  cases hd : c.schema.directives.find? use.name with
  | none =>
    rw [hd] at h
    cases h
  | some d =>
    rw [hd] at h
    dsimp only at h ⊢
    split at h
    · rename_i hl
      rw [if_pos hl]
      exact mapError_ok.mpr (mapError_ok.mp h)
    · cases h

/-- What directives keep does not depend on the path that their errors tell. -/
theorem keep_path {path : Path} (path' : Path) {location : Location} {id : NodeId} {uses : List DirectiveUse}
    {r : Option NodeId} (h : c.keep path location id uses = .ok r) :
    c.keep path' location id uses = .ok r := by
  induction uses generalizing id with
  | nil => exact h
  | cons use rest ih =>
    rw [keep] at h ⊢
    obtain ⟨next, hnext, hrest⟩ := bind_ok.mp h
    apply bind_ok.mpr
    refine ⟨next, applyDirective_path hnext, ?_⟩
    cases next with
    | none => exact hrest
    | some next => exact ih hrest

theorem KeepsAs.unique {id next next' : NodeId} {n n' : Node} (h : c.KeepsAs id next n)
    (h' : c.KeepsAs id next' n') : next = next' ∧ n = n' := by
  obtain ⟨hn, written, path, hw, hk⟩ := h
  obtain ⟨hn', written', path', hw', hk'⟩ := h'
  obtain rfl : written = written' := Option.some.inj (hw.symm.trans hw')
  have same := (keep_path path' hk).symm.trans hk'
  cases same
  exact ⟨rfl, Option.some.inj (hn.symm.trans hn')⟩

theorem KeepsAs.not_prunes {id next : NodeId} {n : Node} (h : c.KeepsAs id next n) :
    ¬c.Prunes id := by
  rintro ⟨written', path', hw', hk'⟩
  obtain ⟨-, written, path, hw, hk⟩ := h
  obtain rfl : written = written' := Option.some.inj (hw.symm.trans hw')
  have same := (keep_path path' hk).symm.trans hk'
  cases same

/-! ## Cycles -/

theorem contents_of_spread {t : SelectionTree} {n : Node} {name : String} {f : Fragment}
    (hs : n.selects = .spread name) (hf : t.fragments.find? name = some f) :
    t.contents? n = some f.children := by
  unfold SelectionTree.contents?
  rw [hs]
  dsimp only
  rw [hf, Option.map_some]

/-- Spreads of one fragment go on to the same nodes. -/
theorem Spreads.enters {id id' child : NodeId} {name : String} (h : c.Spreads id name)
    (h' : c.Spreads id' name) (enters : c.Enters id child) : c.Enters id' child := by
  obtain ⟨next, n, f, hk, hs, hf⟩ := h
  obtain ⟨next', n', f', hk', hs', hf'⟩ := h'
  obtain ⟨next'', n'', held, hk'', hheld, hchild⟩ := enters
  obtain ⟨rfl, rfl⟩ := hk.unique hk''
  obtain rfl : f = f' := Option.some.inj (hf.symm.trans hf')
  have same := (contents_of_spread hs hf).symm.trans hheld
  cases same
  exact ⟨next', n', f.children, hk', contents_of_spread hs' hf, hchild⟩

/-- A spread that is reached again in its own expansion is reached from itself. -/
theorem Spreads.cycle {outer inner : NodeId} {name : String} (h : c.Spreads outer name)
    (h' : c.Spreads inner name) (reached : Relation.TransGen c.Enters outer inner) :
    Relation.TransGen c.Enters inner inner := by
  obtain ⟨child, enters, rest⟩ := Relation.TransGen.head'_iff.mp reached
  exact .head' (h.enters h' enters) rest

theorem not_transGen_of_acc {id : NodeId} (h : Acc (fun child id => c.Enters id child) id) :
    ¬Relation.TransGen c.Enters id id := by
  induction h with
  | intro id _ ih =>
    intro cycle
    obtain ⟨child, enters, rest⟩ := Relation.TransGen.head'_iff.mp cycle
    apply ih child enters
    exact .trans_right rest (.single enters)

/-- Where there is a flattening, what expansions go on to comes to an end. -/
theorem Flattens.acc {ids : List NodeId} {ss : List Selected} (h : c.Flattens ids ss) :
    ∀ id ∈ ids, Acc (fun child id => c.Enters id child) id := by
  induction h with
  | nil => simp
  | pruned hp _ ih =>
    refine List.forall_mem_cons.mpr ⟨.intro _ ?_, ih⟩
    rintro child ⟨next, n, held, hk, -⟩
    exact absurd hp hk.not_prunes
  | hidden hk hf _ _ ih =>
    refine List.forall_mem_cons.mpr ⟨.intro _ ?_, ih⟩
    rintro child ⟨next, n, held, hk', hheld, -⟩
    obtain ⟨rfl, rfl⟩ := hk.unique hk'
    simp [SelectionTree.contents?, hf] at hheld
  | seen hk hf _ _ ih =>
    refine List.forall_mem_cons.mpr ⟨.intro _ ?_, ih⟩
    rintro child ⟨next, n, held, hk', hheld, -⟩
    obtain ⟨rfl, rfl⟩ := hk.unique hk'
    simp [SelectionTree.contents?, hf] at hheld
  | fragment hk hc _ _ inner ih =>
    refine List.forall_mem_cons.mpr ⟨.intro _ ?_, ih⟩
    rintro child ⟨next, n, held, hk', hheld, hchild⟩
    obtain ⟨rfl, rfl⟩ := hk.unique hk'
    cases hc.symm.trans hheld
    exact inner child hchild

theorem acc_of_reached {id next : NodeId} (h : Acc (fun child id => c.Enters id child) id)
    (reached : Relation.ReflTransGen c.Enters id next) :
    Acc (fun child id => c.Enters id child) next := by
  induction reached with
  | refl => exact h
  | tail _ enters ih => exact ih.inv enters

/-- Where there is a flattening, no fragment is spread inside its own expansion. -/
theorem Flattens.not_reenters {ids : List NodeId} {ss : List Selected} (h : c.Flattens ids ss)
    (name : String) : ¬c.Reenters ids name := by
  rintro ⟨id, hid, outer, inner, reached, houter, deeper, hinner⟩
  have acc := acc_of_reached (h.acc id hid) (reached.trans deeper.to_reflTransGen)
  exact not_transGen_of_acc acc (houter.cycle hinner deeper)

/-! ## Flattened fields -/

theorem Flattens.selects {ids : List NodeId} {ss : List Selected} (h : c.Flattens ids ss) :
    ∀ s ∈ ss, c.tree.node? s.id = some s.node ∧ s.node.selects = .field s.field := by
  induction h with
  | nil => simp
  | pruned _ _ ih => exact ih
  | hidden _ _ _ _ ih => exact ih
  | seen hk hf _ _ ih => exact List.forall_mem_cons.mpr ⟨⟨hk.1, hf⟩, ih⟩
  | fragment _ _ _ _ inner ih => exact List.forall_mem_append.mpr ⟨inner, ih⟩

theorem KeepsAs.inPlace {id next : NodeId} {n : Node} (h : c.KeepsAs id next n)
    (inPlace : c.schema.InPlace) : next = id := by
  obtain ⟨-, written, path, -, hk⟩ := h
  exact keep_inPlace inPlace hk

/-- What stands in place of a fragment is selected in it. -/
theorem leads_of_contents {id child : NodeId} {n : Node} {held : List NodeId}
    (hn : c.tree.node? id = some n) (hc : c.tree.contents? n = some held) (hchild : child ∈ held) :
    c.tree.Leads id child := by
  unfold SelectionTree.contents? at hc
  cases hs : n.selects with
  | field f =>
    rw [hs] at hc
    cases hc
  | inline =>
    rw [hs] at hc
    cases hc
    apply SelectionTree.Leads.child hn _ hchild
    rw [Node.spread?, hs]
  | spread name =>
    rw [hs] at hc
    obtain ⟨f, hf, rfl⟩ := Option.map_eq_some_iff.mp hc
    have hname : n.spread? = some name := by rw [Node.spread?, hs]
    apply SelectionTree.Leads.spread hn hname
    unfold SelectionTree.fragmentChildren
    rw [hf]
    exact hchild

/-- Nodes lead to the fields that they stand for, where directives leave nodes in their places. -/
theorem Flattens.leads {ids : List NodeId} {ss : List Selected} (h : c.Flattens ids ss)
    (inPlace : c.schema.InPlace) :
    ∀ s ∈ ss, ∃ id ∈ ids, Relation.ReflTransGen c.tree.Leads id s.id := by
  induction h with
  | nil => simp
  | pruned _ _ ih =>
    intro s hs
    obtain ⟨id, hid, leads⟩ := ih s hs
    exact ⟨id, List.mem_cons_of_mem _ hid, leads⟩
  | hidden _ _ _ _ ih =>
    intro s hs
    obtain ⟨id, hid, leads⟩ := ih s hs
    exact ⟨id, List.mem_cons_of_mem _ hid, leads⟩
  | seen hk _ _ _ ih =>
    refine List.forall_mem_cons.mpr ⟨⟨_, List.mem_cons_self, ?_⟩, fun s hs => ?_⟩
    · obtain rfl := hk.inPlace inPlace
      exact .refl
    · obtain ⟨id, hid, leads⟩ := ih s hs
      exact ⟨id, List.mem_cons_of_mem _ hid, leads⟩
  | fragment hk hc _ _ inner ih =>
    refine List.forall_mem_append.mpr ⟨fun s hs => ?_, fun s hs => ?_⟩
    · obtain rfl := hk.inPlace inPlace
      obtain ⟨child, hchild, leads⟩ := inner s hs
      exact ⟨_, List.mem_cons_self, .head (leads_of_contents hk.1 hc hchild) leads⟩
    · obtain ⟨id, hid, leads⟩ := ih s hs
      exact ⟨id, List.mem_cons_of_mem _ hid, leads⟩

/-! ## Visits -/

def expandAll (c : Planner) (pass : Pass) (path : Path) (fuel : Nat) (spreading : List String)
    (ids : List NodeId) : Except PlanError (List Contribution) := do
  let parts ← ids.mapM (c.expandNode pass path fuel spreading)
  pure parts.flatten

/-- The expansion of a node that directives keep. -/
def expandKept (c : Planner) (pass : Pass) (path here : Path) (fuel : Nat) (spreading : List String)
    (next : NodeId) (n : Node) : Except PlanError (List Contribution) :=
  match n.selects with
  | .spread name =>
    match c.tree.fragments.find? name with
    | none => throw ⟨here, .unknownFragment name⟩
    | some f =>
      if spreading.contains name then throw ⟨here, .cyclicFragment name⟩
      else c.expandAll pass path fuel (name :: spreading) f.children
  | .inline => c.expandAll pass path fuel spreading n.children
  | .field f => if c.authorizer f then pure (Selected.contributions ⟨next, n, f⟩ pass) else pure []

section Visits

variable {pass : Pass} {path : Path} {fuel : Nat} {spreading : List String} {id next : NodeId}
  {n : Node} {ids : List NodeId} {parts : List Contribution}

theorem expandAll_cons : c.expandAll pass path fuel spreading (id :: ids) = (do
    let first ← c.expandNode pass path fuel spreading id
    let others ← c.expandAll pass path fuel spreading ids
    pure (first ++ others)) := by
  unfold expandAll
  rw [List.mapM_cons]
  cases c.expandNode pass path fuel spreading id with
  | error e => rfl
  | ok first => cases ids.mapM (c.expandNode pass path fuel spreading) <;> rfl

theorem expandAll_error {e : PlanError} (h : c.expandAll pass path fuel spreading ids = .error e) :
    ∃ id ∈ ids, c.expandNode pass path fuel spreading id = .error e := by
  induction ids with
  | nil => cases h
  | cons id ids ih =>
    rw [expandAll_cons] at h
    cases hid : c.expandNode pass path fuel spreading id with
    | error e' =>
      rw [hid] at h
      cases h
      exact ⟨id, List.mem_cons_self, hid⟩
    | ok first =>
      rw [hid] at h
      cases hids : c.expandAll pass path fuel spreading ids with
      | error e' =>
        rw [hids] at h
        cases h
        obtain ⟨other, hother, he⟩ := ih hids
        exact ⟨other, List.mem_cons_of_mem _ hother, he⟩
      | ok others =>
        rw [hids] at h
        cases h

theorem expandNode_of_prunes (h : c.Prunes id) :
    c.expandNode pass path (fuel + 1) spreading id = .ok [] := by
  obtain ⟨written, path', hw, hk⟩ := h
  have hk := keep_path (nodePath path written) hk
  unfold expandNode node
  rw [hw]
  dsimp only [Bind.bind, Except.bind, pure, Except.pure]
  rw [hk]

theorem expandNode_of_keepsAs (pass : Pass) (path : Path) (h : c.KeepsAs id next n) : ∃ here, ∀ fuel spreading,
    c.expandNode pass path (fuel + 1) spreading id =
      c.expandKept pass path here fuel spreading next n := by
  obtain ⟨hn, written, path', hw, hk⟩ := h
  have hk := keep_path (nodePath path written) hk
  refine ⟨nodePath path written, fun fuel spreading => ?_⟩
  unfold expandNode node
  rw [hw]
  dsimp only [Bind.bind, Except.bind, pure, Except.pure]
  rw [hk]
  dsimp only
  rw [hn]
  rfl

theorem applyDirective_error {location : Location} {use : DirectiveUse} {e : PlanError}
    (h : c.applyDirective path location id use = .error e) : ¬e.fault.Circular := by
  unfold applyDirective at h
  intro circular
  split at h
  · cases h
    exact circular
  · rename_i d _
    split at h
    · cases hd : d.processField id (use.arguments.resolve c.assignment) with
      | ok r =>
        rw [hd] at h
        cases h
      | error m =>
        rw [hd] at h
        cases h
        exact circular
    · cases h
      exact circular

theorem keep_error {location : Location} {uses : List DirectiveUse} {e : PlanError}
    (h : c.keep path location id uses = .error e) : ¬e.fault.Circular := by
  induction uses generalizing id with
  | nil => cases h
  | cons use rest ih =>
    rw [keep] at h
    cases hnext : c.applyDirective path location id use with
    | error e' =>
      rw [hnext] at h
      cases h
      exact applyDirective_error hnext
    | ok r =>
      rw [hnext] at h
      cases r with
      | none => cases h
      | some next => exact ih h

/-- A node is pruned, or kept, or its expansions fail whatever they are in. -/
theorem expandNode_cases (c : Planner) (pass : Pass) (path : Path) (id : NodeId) :
    c.Prunes id ∨ (∃ next n, c.KeepsAs id next n) ∨
      ∃ e : PlanError, ¬e.fault.Circular ∧ ∀ fuel spreading,
        c.expandNode pass path (fuel + 1) spreading id = .error e := by
  cases hw : c.tree.node? id with
  | none =>
    right; right
    refine ⟨⟨path, .missingNode id⟩, fun h => h, fun fuel spreading => ?_⟩
    unfold expandNode node
    rw [hw]
    rfl
  | some written =>
    cases hk : c.keep (nodePath path written) written.location id written.directives with
    | error e =>
      right; right
      refine ⟨e, keep_error hk, fun fuel spreading => ?_⟩
      unfold expandNode node
      rw [hw]
      dsimp only [Bind.bind, Except.bind, pure, Except.pure]
      rw [hk]
    | ok r =>
      cases r with
      | none =>
        left
        exact ⟨written, _, hw, hk⟩
      | some next =>
        right
        cases hn : c.tree.node? next with
        | some n =>
          left
          exact ⟨next, n, hn, written, _, hw, hk⟩
        | none =>
          right
          refine ⟨⟨nodePath path written, .missingNode next⟩, fun h => h, fun fuel spreading => ?_⟩
          unfold expandNode node
          rw [hw]
          dsimp only [Bind.bind, Except.bind, pure, Except.pure]
          rw [hk]
          dsimp only
          rw [hn]
          rfl

end Visits

/-! ## What expansions give -/

theorem flattens_of_each {path : Path} {fuel : Nat} {spreading : List String} {ids : List NodeId}
    {parts : List Contribution}
    (each : ∀ {id parts}, c.expandNode .services path fuel spreading id = .ok parts →
      ∃ ss, c.Flattens [id] ss ∧ parts = ss.map .node)
    (h : c.expandAll .services path fuel spreading ids = .ok parts) :
    ∃ ss, c.Flattens ids ss ∧ parts = ss.map .node := by
  induction ids generalizing parts with
  | nil =>
    cases h
    exact ⟨[], .nil, rfl⟩
  | cons id ids rest =>
    rw [expandAll_cons] at h
    obtain ⟨first, hfirst, h⟩ := bind_ok.mp h
    obtain ⟨others, hothers, h⟩ := bind_ok.mp h
    cases h
    obtain ⟨ss, flat, rfl⟩ := each hfirst
    obtain ⟨ss', flat', rfl⟩ := rest hothers
    exact ⟨ss ++ ss', flat.append flat', List.map_append.symm⟩

/-- What is expanded of a node is a flattening of it. -/
theorem flattens_of_expandNode {path : Path} {fuel : Nat} {spreading : List String} {id : NodeId}
    {parts : List Contribution} (h : c.expandNode .services path fuel spreading id = .ok parts) :
    ∃ ss, c.Flattens [id] ss ∧ parts = ss.map .node := by
  induction fuel generalizing spreading id parts with
  | zero => cases h
  | succ fuel ih =>
    have opened : ∀ {next n held spreading}, c.KeepsAs id next n → c.tree.contents? n = some held →
        c.expandAll .services path fuel spreading held = .ok parts →
        ∃ ss, c.Flattens [id] ss ∧ parts = ss.map .node := by
      intro next n held spreading hk hc hall
      obtain ⟨ss, flat, rfl⟩ := flattens_of_each ih hall
      refine ⟨ss ++ [], .fragment hk hc flat .nil, ?_⟩
      rw [List.append_nil]
    obtain hp | ⟨next, n, hk⟩ | ⟨e, -, he⟩ := c.expandNode_cases .services path id
    · rw [expandNode_of_prunes hp] at h
      cases h
      exact ⟨[], .pruned hp .nil, rfl⟩
    · obtain ⟨here, run⟩ := expandNode_of_keepsAs .services path hk
      rw [run] at h
      unfold expandKept at h
      cases hs : n.selects with
      | spread name =>
        rw [hs] at h
        dsimp only at h
        cases hf : c.tree.fragments.find? name with
        | none =>
          rw [hf] at h
          cases h
        | some f =>
          rw [hf] at h
          dsimp only at h
          split at h
          · cases h
          · exact opened hk (contents_of_spread hs hf) h
      | inline =>
        rw [hs] at h
        refine opened hk ?_ h
        unfold SelectionTree.contents?
        rw [hs]
      | field f =>
        rw [hs] at h
        dsimp only at h
        split at h
        · rename_i ha
          cases h
          exact ⟨[⟨next, n, f⟩], .seen hk hs ha .nil, rfl⟩
        · rename_i ha
          cases h
          exact ⟨[], .hidden hk hs (by simpa using ha) .nil, rfl⟩
    · rw [he] at h
      cases h

/-- How an expansion has come to a node: the nodes above it are those that it has gone through, and it
has not gone through one twice, and the fragments around it are spread there. -/
structure Along (c : Planner) (above : List NodeId) (spreading : List String) (id : NodeId) : Prop where
  nodup : above.Nodup
  nodes : ∀ a ∈ above, a < c.tree.size
  enters : ∀ a ∈ above, Relation.TransGen c.Enters a id
  spreads : ∀ name ∈ spreading, ∃ a ∈ above, c.Spreads a name

/-- An expansion that has come to a node of the tree goes on to the nodes in a fragment, as long as
what it goes on to comes to an end. -/
theorem Along.enter {above : List NodeId} {spreading spreading' : List String} {id child : NodeId}
    (h : c.Along above spreading id) (acc : Acc (fun child id => c.Enters id child) id)
    (hid : id < c.tree.size) (enters : c.Enters id child)
    (spread : ∀ name ∈ spreading', name ∈ spreading ∨ c.Spreads id name) :
    c.Along (id :: above) spreading' child where
  nodup := by
    refine List.nodup_cons.mpr ⟨fun twice => ?_, h.nodup⟩
    exact not_transGen_of_acc acc (h.enters id twice)
  nodes := List.forall_mem_cons.mpr ⟨hid, h.nodes⟩
  enters := List.forall_mem_cons.mpr ⟨.single enters, fun a ha => (h.enters a ha).tail enters⟩
  spreads := by
    intro name hname
    obtain hold | hnew := spread name hname
    · obtain ⟨a, ha, hs⟩ := h.spreads name hold
      exact ⟨a, List.mem_cons_of_mem _ ha, hs⟩
    · exact ⟨id, List.mem_cons_self, hnew⟩

theorem Along.length_le {above : List NodeId} {spreading : List String} {id : NodeId}
    (h : c.Along above spreading id) : above.length ≤ c.tree.size := by
  have within : above ⊆ List.range c.tree.size := fun a ha => List.mem_range.mpr (h.nodes a ha)
  have fewer := (List.subperm_of_subset h.nodup within).length_le
  rwa [List.length_range] at fewer

/-- The nodes above are different nodes of the tree, so there is room for one more step. -/
theorem Along.room {above : List NodeId} {spreading : List String} {id : NodeId} {fuel : Nat}
    (h : c.Along above spreading id) (room : c.tree.size < fuel + above.length) :
    ∃ rest, fuel = rest + 1 := by
  have := h.length_le
  exact ⟨fuel - 1, by omega⟩

theorem Along.not_spreading {above : List NodeId} {spreading : List String} {id : NodeId}
    {name : String} (h : c.Along above spreading id)
    (acc : Acc (fun child id => c.Enters id child) id) (hs : c.Spreads id name) :
    spreading.contains name = false := by
  rw [List.contains_eq_mem, decide_eq_false_iff_not]
  intro hname
  obtain ⟨a, ha, hs'⟩ := h.spreads name hname
  exact not_transGen_of_acc acc (hs'.cycle hs (h.enters a ha))

/-- Where there is a flattening, expansions give it. -/
theorem expandAll_of_flattens {path : Path} {ids : List NodeId} {ss : List Selected}
    (h : c.Flattens ids ss) {fuel : Nat} {above : List NodeId} {spreading : List String}
    (along : ∀ id ∈ ids, c.Along above spreading id) (room : c.tree.size < fuel + above.length) :
    c.expandAll .services path fuel spreading ids = .ok (ss.map .node) := by
  induction h generalizing fuel above spreading with
  | nil => rfl
  | pruned hp _ ih =>
    obtain ⟨first, others⟩ := List.forall_mem_cons.mp along
    obtain ⟨rest, rfl⟩ := first.room room
    rw [expandAll_cons, expandNode_of_prunes hp, ih others room]
    rfl
  | hidden hk hf ha _ ih =>
    obtain ⟨first, others⟩ := List.forall_mem_cons.mp along
    obtain ⟨rest, rfl⟩ := first.room room
    obtain ⟨here, run⟩ := expandNode_of_keepsAs .services path hk
    rw [expandAll_cons, run, ih others room]
    unfold expandKept
    rw [hf]
    dsimp only
    rw [if_neg (by simp [ha])]
    rfl
  | seen hk hf ha _ ih =>
    obtain ⟨first, others⟩ := List.forall_mem_cons.mp along
    obtain ⟨rest, rfl⟩ := first.room room
    obtain ⟨here, run⟩ := expandNode_of_keepsAs .services path hk
    rw [expandAll_cons, run, ih others room]
    unfold expandKept
    rw [hf]
    dsimp only
    rw [if_pos ha]
    rfl
  | @fragment id next n held ids inner ss hk hc hinner hrest ihInner ih =>
    obtain ⟨first, others⟩ := List.forall_mem_cons.mp along
    obtain ⟨rest, rfl⟩ := first.room room
    obtain ⟨here, run⟩ := expandNode_of_keepsAs .services path hk
    have acc := (Flattens.fragment hk hc hinner hrest).acc id List.mem_cons_self
    have hid : id < c.tree.size := by
      obtain ⟨-, written, -, hw, -⟩ := hk
      exact SelectionTree.lt_size hw
    have inside : ∀ spreading', (∀ name ∈ spreading', name ∈ spreading ∨ c.Spreads id name) →
        c.expandAll .services path rest spreading' held = .ok (inner.map .node) := by
      intro spreading' spread
      have along' : ∀ child ∈ held, c.Along (id :: above) spreading' child := fun child hchild =>
        first.enter acc hid ⟨next, n, held, hk, hc, hchild⟩ spread
      apply ihInner along'
      rw [List.length_cons]
      omega
    have open_ok : c.expandKept .services path here rest spreading next n =
        .ok (inner.map .node) := by
      unfold expandKept
      unfold SelectionTree.contents? at hc
      cases hs : n.selects with
      | field f =>
        rw [hs] at hc
        cases hc
      | inline =>
        rw [hs] at hc
        cases hc
        exact inside spreading fun name hname => .inl hname
      | spread name =>
        rw [hs] at hc
        obtain ⟨f, hf, rfl⟩ := Option.map_eq_some_iff.mp hc
        have spreads : c.Spreads id name := ⟨next, n, f, hk, hs, hf⟩
        dsimp only
        rw [hf]
        dsimp only
        rw [first.not_spreading acc spreads, if_neg Bool.false_ne_true]
        apply inside
        intro other hother
        obtain rfl | hother := List.mem_cons.mp hother
        · exact .inr spreads
        · exact .inl hother
    rw [expandAll_cons, run, open_ok, ih others room, List.map_append]
    rfl

/-- What nodes expand to in the service pass is their flattening. -/
theorem expand_services_iff {path : Path} {ids : List NodeId} {parts : List Contribution} :
    c.expand .services path ids = .ok parts ↔ ∃ ss, c.Flattens ids ss ∧ parts = ss.map .node := by
  constructor
  · exact flattens_of_each flattens_of_expandNode
  · rintro ⟨ss, flat, rfl⟩
    have along : ∀ id ∈ ids, c.Along [] [] id := fun id _ => ⟨.nil, by simp, by simp, by simp⟩
    apply expandAll_of_flattens flat along
    have enough : c.tree.size * 1 ≤ c.tree.size * (c.tree.fragments.length + 1) :=
      Nat.mul_le_mul_left _ (by omega)
    unfold expansionDepth
    rw [List.length_nil]
    omega

/-- A root expands to its flattening. -/
theorem expandRoot_flattens {root : NodeId} {ss : List Selected} (h : c.expandRoot root = .ok ss) :
    c.Flattens [root] ss := by
  unfold expandRoot at h
  obtain ⟨parts, hparts, h⟩ := bind_ok.mp h
  cases h
  obtain ⟨ss, flat, rfl⟩ := expand_services_iff.mp hparts
  rw [List.filterMap_map]
  exact (List.filterMap_some (l := ss)).symm ▸ flat

/-- Nodes have one flattening. -/
theorem Flattens.unique {ids : List NodeId} {ss ss' : List Selected} (h : c.Flattens ids ss)
    (h' : c.Flattens ids ss') : ss = ss' := by
  have expanded : c.expand .services [] ids = .ok (ss.map .node) :=
    expand_services_iff.mpr ⟨ss, h, rfl⟩
  rw [expand_services_iff.mpr ⟨ss', h', rfl⟩] at expanded
  have injective : Function.Injective Contribution.node := fun s s' same => by cases same; rfl
  exact (List.map_injective_iff.mpr injective (Except.ok.inj expanded)).symm

end Planner

/-! ## The shape pass -/

/-- What a contribution to the service pass is in the shape pass. -/
def Contribution.shaped : Contribution → List Contribution
  | .node s => s.contributions .shape
  | part => [part]

namespace Planner

theorem expandNode_shape (path : Path) (fuel : Nat) (spreading : List String) (id : NodeId) :
    c.expandNode .shape path fuel spreading id =
      (c.expandNode .services path fuel spreading id).map (·.flatMap Contribution.shaped) := by
  induction fuel generalizing spreading id with
  | zero => rfl
  | succ fuel ih =>
    have below : ∀ spreading (ids : List NodeId),
        (do
          let parts ← ids.mapM (c.expandNode .shape path fuel spreading)
          pure parts.flatten : Except PlanError _) =
          Except.map (List.flatMap Contribution.shaped) (do
            let parts ← ids.mapM (c.expandNode .services path fuel spreading)
            pure parts.flatten) := by
      intro spreading ids
      rw [mapM_forall₂ (List.forall₂_same.mpr fun id _ => ih spreading id)]
      cases ids.mapM (c.expandNode .services path fuel spreading) with
      | error e => rfl
      | ok parts =>
        refine congrArg Except.ok ?_
        simp only [List.flatMap, List.map_flatten, List.flatten_flatten, List.map_map]
        rfl
    unfold Planner.expandNode
    cases c.node path id with
    | error e => rfl
    | ok written =>
      dsimp only [Bind.bind, Except.bind]
      cases c.keep (nodePath path written) written.location id written.directives with
      | error e => rfl
      | ok r =>
        cases r with
        | none => rfl
        | some next =>
          dsimp only
          cases c.node (nodePath path written) next with
          | error e => rfl
          | ok n =>
            dsimp only
            split
            · split
              · rfl
              · split
                · rfl
                · exact below _ _
            · exact below _ _
            · split
              · exact congrArg Except.ok (by simp [Contribution.shaped, Selected.contributions])
              · rfl

/-- An expansion for the shape pass is one for the service pass with the parts of service-backed fields
in their place. -/
theorem expand_shape (path : Path) (ids : List NodeId) :
    c.expand .shape path ids =
      (c.expand .services path ids).map (·.flatMap Contribution.shaped) := by
  unfold Planner.expand
  rw [mapM_forall₂ (List.forall₂_same.mpr fun id _ => expandNode_shape path _ [] id)]
  cases ids.mapM (c.expandNode .services path c.expansionDepth []) with
  | error e => rfl
  | ok parts =>
    refine congrArg Except.ok ?_
    simp only [List.flatMap, List.map_flatten, List.flatten_flatten, List.map_map]
    rfl

end Planner

end FieldPlan
