import FieldPlan.Proofs.Schema.Described
import FieldPlan.Proofs.Selection.Forest
import Mathlib.Logic.Function.Basic

/-!
# Types that nodes stand on

Nodes are checked against a type when they are added, and that type is not kept. Here it is given beside
the tree, by a function of the numbers of nodes.

* `SelectionTree.Offering` : what is offered at a place: the root type at the roots, the type of a
  fragment in it, the entity of a field below it, and below an inline fragment the type that it stands on;
* `SelectionTree.Standing` : nodes stand on what is offered where they are listed, and select its fields;
* `Request.build_standing` : the nodes of a request stand on such types;
* `SelectionTree.Fits` : spreads stand on the types that the fragments of their names are declared on.
-/

namespace FieldPlan

variable {schema : Schema} {path : Path} {root owner ty : String} {fragments : List FragmentRequest}

/-- What is selected below a node that stands on a type: the fields of the entity of a field, and of that
type below an inline fragment. -/
def Selects.Holds (here below : String) : Selects → Prop
  | .field f => f.entity = some below
  | .inline => below = here
  | .spread _ => False

namespace SelectionTree

variable {t t' : SelectionTree} {on : NodeId → String} {place : Attach} {node : Node} {id : NodeId}

/-- The type whose fields may be selected at a place. -/
def Offering (t : SelectionTree) (root : String) (fragments : List FragmentRequest)
    (on : NodeId → String) : Attach → String → Prop
  | .root, ty => ty = root
  | .fragment name, ty => ∃ f ∈ fragments, f.name = name ∧ f.on = ty
  | .child parent, ty => ∃ n, t.node? parent = some n ∧ n.selects.Holds (on parent) ty

/-- Nodes stand on the types that are offered where they are listed, and select fields of these. -/
structure Standing (t : SelectionTree) (root : String) (fragments : List FragmentRequest)
    (on : NodeId → String) : Prop where
  listed : ∀ place, ∀ id ∈ t.listed place, t.Offering root fragments on place (on id)
  owner : ∀ id n f, t.node? id = some n → n.selects = .field f → f.owner = on id

theorem Standing.empty (kind : OperationKind) (root : String) (fragments : List FragmentRequest)
    (on : NodeId → String) : (SelectionTree.empty kind).Standing root fragments on where
  listed place id h := by cases place <;> cases h
  owner id n f h := by simp [node?, SelectionTree.empty] at h

/-- What a node holds, for the type on which something is selected below it. -/
theorem Standing.below (h : t.Standing root fragments on) {n : Node} (hn : t.node? id = some n)
    {child : NodeId} (hchild : child ∈ n.children) :
    ∃ n, t.node? id = some n ∧ n.selects.Holds (on id) (on child) := by
  refine h.listed (.child id) child ?_
  show child ∈ t.children id
  rwa [children, hn]

/-! ## Adding nodes -/

/-- The second tree has the nodes of the first one on the same types. -/
structure Stays (t : SelectionTree) (on : NodeId → String) (t' : SelectionTree)
    (on' : NodeId → String) : Prop where
  keeps : t.Keeps t'
  same : ∀ id < t.size, on' id = on id

theorem Stays.refl (t : SelectionTree) (on : NodeId → String) : t.Stays on t on :=
  ⟨.refl t, fun _ _ => rfl⟩

theorem Keeps.size_le (h : t.Keeps t') : t.size ≤ t'.size := by
  by_contra less
  obtain ⟨n, hn⟩ := node_of_lt (Nat.not_le.mp less)
  obtain ⟨n', hn', -⟩ := h _ n hn
  exact Nat.lt_irrefl _ (lt_size hn')

theorem Stays.trans {t'' : SelectionTree} {on' on'' : NodeId → String} (h : t.Stays on t' on')
    (h' : t'.Stays on' t'' on'') : t.Stays on t'' on'' where
  keeps := h.keeps.trans h'.keeps
  same id hid := (h'.same id (hid.trans_le h.keeps.size_le)).trans (h.same id hid)

theorem Offering.stays {on' : NodeId → String} (h : t.Offering root fragments on place ty)
    (stays : t.Stays on t' on') : t'.Offering root fragments on' place ty := by
  cases place with
  | root => exact h
  | fragment name => exact h
  | child parent =>
    obtain ⟨n, hn, holds⟩ := h
    obtain ⟨n', hn', same⟩ := stays.keeps parent n hn
    refine ⟨n', hn', ?_⟩
    rw [same, stays.same parent (lt_size hn)]
    exact holds

theorem Adds.keeps (h : t.Adds place node t') : t.Keeps t' := by
  intro id n hn
  refine ⟨_, h.old id n hn, ?_⟩
  split <;> rfl

theorem Adds.stays (h : t.Adds place node t') (on : NodeId → String) (ty : String) :
    t.Stays on t' (Function.update on t.size ty) where
  keeps := h.keeps
  same _ hid := Function.update_of_ne (Nat.ne_of_lt hid) ty on

/-- A node that is added where its type is offered stands on that type; the others stand as they did. -/
theorem Standing.add (h : t.Standing root fragments on) (linked : t.Linked)
    (offered : t.Offering root fragments on place ty) (hadd : t.Adds place node t')
    (hnode : ∀ f, node.selects = .field f → f.owner = ty) :
    t'.Standing root fragments (Function.update on t.size ty) where
  listed other id hid := by
    rcases hadd.mem_listed.mp hid with old | ⟨rfl, rfl⟩
    · rw [(hadd.stays on ty).same id (linked.agrees other id old).1]
      exact (h.listed other id old).stays (hadd.stays on ty)
    · rw [Function.update_self]
      exact offered.stays (hadd.stays on ty)
  owner id n f hn hf := by
    by_cases new : id = t.size
    · subst new
      rw [Function.update_self]
      rw [hadd.new] at hn
      cases hn
      exact hnode f hf
    · have bound := lt_size hn
      rw [hadd.size] at bound
      have hid : id < t.size := (Nat.lt_succ_iff_lt_or_eq.mp bound).resolve_right new
      obtain ⟨m, hm⟩ := node_of_lt hid
      rw [(hadd.stays on ty).same id hid]
      obtain ⟨n', hn', same⟩ := hadd.keeps id m hm
      obtain rfl : n' = n := Option.some.inj (hn'.symm.trans hn)
      exact h.owner id m f hm (same.symm.trans hf)

theorem Standing.addFragment (h : t.Standing root fragments on) (name on' : String) :
    (t.addFragment name on').Standing root fragments on where
  listed place id hid := by
    rw [listed_addFragment] at hid
    exact (h.listed place id hid).stays ⟨fun _ n hn => ⟨n, hn, rfl⟩, fun _ _ => rfl⟩
  owner := h.owner

end SelectionTree

/-! ## Selections -/

/-- A selection on a type selects a field of it; what is selected below it is selected on what it holds. -/
theorem resolveSelection_standing (indexed : schema.Indexed) {field outputName spread on : Option String} {leaf : Bool}
    {r : Resolved} (h : resolveSelection schema owner field outputName spread on leaf path = .ok r) :
    (∀ f, r.node.selects = .field f → f.owner = owner) ∧
      ∀ below, r.owner = some below → r.node.selects.Holds owner below := by
  unfold resolveSelection at h
  split at h
  · unfold resolveField at h
    split at h
    · cases h
    · rename_i f hf
      obtain ⟨-, owned, -⟩ := indexed.field?_ok hf
      dsimp only at h
      split at h
      · cases h
      · cases h
      · cases h
      · cases h
        refine ⟨fun g hg => ?_, fun below hb => hb⟩
        cases hg
        exact owned
  · cases h
    exact ⟨nofun, nofun⟩
  · unfold resolveInline at h
    dsimp only at h
    split at h
    · cases h
    · split at h
      · cases h
      · rename_i same
        cases h
        refine ⟨nofun, fun below hb => ?_⟩
        cases hb
        exact not_not.mp fun differs => same (bne_iff_ne.mpr differs)

open SelectionTree

mutual

theorem addSelection_standing {t t' : SelectionTree} {on : NodeId → String} {attach : Attach}
    {path : Path} {owner : String} {s : SelectionRequest} (indexed : schema.Indexed)
    (h : t.Standing root fragments on) (linked : t.Linked) (offered : t.Offering root fragments on attach owner)
    (hadd : addSelection schema attach owner path s t = .ok ((), t')) :
    ∃ on', t'.Standing root fragments on' ∧ t'.Linked ∧ t.Stays on t' on' := by
  match s with
  | ⟨field, outputName, spread, condition, arguments, directives, selections⟩ =>
    rw [addSelection] at hadd
    obtain ⟨r, t₁, hlift, h₁⟩ := run_bind_ok.mp hadd
    obtain ⟨hr, ht₁⟩ := run_lift_ok.mp hlift
    obtain rfl : t₁ = t := ht₁
    obtain ⟨id, t₂, hnode, h₂⟩ := run_bind_ok.mp h₁
    obtain ⟨rfl, adds⟩ := grow_ok (Attach.add_ok.mp hnode)
    obtain ⟨owned, holds⟩ := resolveSelection_standing indexed hr
    have standing := h.add linked offered adds owned
    have stays := adds.stays on owner
    cases hb : r.owner with
    | none =>
      rw [hb] at h₂
      cases h₂
      exact ⟨_, standing, linked.add adds, stays⟩
    | some entity =>
      rw [hb] at h₂
      have below : t₂.Offering root fragments (Function.update on t₁.size owner) (.child t₁.size)
          entity := by
        refine ⟨_, adds.new, ?_⟩
        rw [Function.update_self]
        exact holds entity hb
      obtain ⟨on', standing', linked', stays'⟩ :=
        addSelections_standing indexed standing (linked.add adds) below h₂
      exact ⟨on', standing', linked', stays.trans stays'⟩

/-- Selections on an offered type stand on what they are selected on. -/
theorem addSelections_standing {t t' : SelectionTree} {on : NodeId → String} {attach : Attach}
    {path : Path} {owner : String} {ss : List SelectionRequest} (indexed : schema.Indexed)
    (h : t.Standing root fragments on) (linked : t.Linked) (offered : t.Offering root fragments on attach owner)
    (hadd : addSelections schema attach owner path ss t = .ok ((), t')) :
    ∃ on', t'.Standing root fragments on' ∧ t'.Linked ∧ t.Stays on t' on' := by
  match ss with
  | [] =>
    cases hadd
    exact ⟨on, h, linked, .refl t on⟩
  | s :: rest =>
    rw [addSelections] at hadd
    obtain ⟨_, t₁, hs, h₁⟩ := run_bind_ok.mp hadd
    obtain ⟨on₁, standing, linked₁, stays⟩ := addSelection_standing indexed h linked offered hs
    obtain ⟨on₂, standing', linked₂, stays'⟩ :=
      addSelections_standing indexed standing linked₁ (offered.stays stays) h₁
    exact ⟨on₂, standing', linked₂, stays.trans stays'⟩

end

/-- The nodes of the tree of a request stand on types. -/
theorem Request.build_standing {t : SelectionTree} {r : Request} (indexed : schema.Indexed)
    (h : r.build schema = .ok t) :
    ∃ root on, schema.rootType r.operation = some root ∧ t.Standing root r.fragments on := by
  obtain ⟨root, base, hroot, hbase, hroots⟩ := Request.build_ok.mp h
  obtain ⟨declared, hdeclared, h₁⟩ := bind_ok.mp hbase
  obtain ⟨⟨_, grown⟩, hgrow, h₂⟩ := bind_ok.mp h₁
  cases h₂
  have start : ∃ on, declared.Standing root r.fragments on ∧ declared.Linked := by
    refine foldlM_ok (fun _ t => ∃ on, t.Standing root r.fragments on ∧ t.Linked) hdeclared ?_
      fun _ f _ t t' _ ht hstep => ?_
    · exact ⟨fun _ => root, .empty r.operation root r.fragments _, .empty r.operation⟩
    · unfold Request.declare at hstep
      split at hstep
      · cases hstep
        obtain ⟨on, standing, linked⟩ := ht
        exact ⟨on, standing.addFragment f.name f.on, linked.addFragment f.name f.on⟩
      · cases hstep
  have held : ∃ on, base.Standing root r.fragments on ∧ base.Linked := by
    refine run_foldlM_ok (fun _ _ t => ∃ on, t.Standing root r.fragments on ∧ t.Linked) hgrow start
      fun _ f _ _ t _ t' hsplit ht hstep => ?_
    obtain ⟨on, standing, linked⟩ := ht
    have known : f ∈ r.fragments := by simp [hsplit]
    have offered : t.Offering root r.fragments on (.fragment f.name) f.on := ⟨f, known, rfl, rfl⟩
    obtain ⟨on', standing', linked', -⟩ := addSelections_standing indexed standing linked offered hstep
    exact ⟨on', standing', linked'⟩
  obtain ⟨on, standing, linked⟩ := held
  have offered : base.Offering root r.fragments on .root root := rfl
  obtain ⟨on', standing', -, -⟩ := addSelections_standing indexed standing linked offered hroots
  exact ⟨root, on', hroot, standing'⟩

/-- A spread stands on the type that the fragments of its name are declared on. -/
def SelectionTree.Fits (t : SelectionTree) (fragments : List FragmentRequest)
    (on : NodeId → String) : Prop :=
  ∀ id n name, t.node? id = some n → n.selects = .spread name →
    ∀ f ∈ fragments, f.name = name → f.on = on id

end FieldPlan
