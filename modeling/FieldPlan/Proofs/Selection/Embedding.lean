import FieldPlan.Proofs.Selection.Ordered
import FieldPlan.Proofs.Selection.Walk
import FieldPlan.Selection.Inheritance

/-!
# Embedded trees

* `SelectionTree.Embeds` : a tree whose nodes stand in another tree under other numbers, over the same
  fragments;
* `SelectionTree.Embeds.hasAnyServices_eq`, `SelectionTree.Embeds.hasServiceDescendants_eq`,
  `SelectionTree.Embeds.mergedArguments_eq` : searches find the same and arguments are inherited from
  the same nodes;
* `SelectionTree.Ordered.search_deeper` : searches go deep enough.
-/

namespace FieldPlan

def Node.move (φ : NodeId → NodeId) (n : Node) : Node :=
  { n with children := n.children.map φ, parent := n.parent.map φ }

namespace SelectionTree

/-! ## Embedded trees -/

/-- The nodes of the first tree stand in the second one under the numbers that `φ` gives, over the same
fragments, whose nodes have the same numbers in both. -/
structure Embeds (φ : NodeId → NodeId) (t' t : SelectionTree) : Prop where
  node : ∀ id n, t'.node? id = some n → t.node? (φ id) = some (n.move φ)
  fragments : t.fragments = t'.fragments
  fixed : ∀ name f, t'.fragments.find? name = some f → ∀ id ∈ f.children, φ id = id
  size : t'.size ≤ t.size

namespace Embeds

variable {φ : NodeId → NodeId} {t' t : SelectionTree} (h : t'.Embeds φ t)

include h

theorem fragmentChildren_eq (name : String) :
    t.fragmentChildren name = (t'.fragmentChildren name).map φ := by
  unfold fragmentChildren
  rw [h.fragments]
  cases hf : t'.fragments.find? name with
  | none => rfl
  | some f => exact ((List.map_congr_left (h.fixed name f hf)).trans (List.map_id _)).symm

theorem below_eq (entered : List String) (n : Node) :
    t.below entered (n.move φ) = (t'.below entered n).map (List.map φ) id := by
  unfold below
  rw [show (n.move φ).spread? = n.spread? from rfl]
  cases n.spread? with
  | none => rfl
  | some name =>
    dsimp only
    split
    · rfl
    · rw [h.fragmentChildren_eq, Prod.map_apply, List.map_append]
      rfl

variable (ordered : t'.Ordered)

include ordered

/-- A walk that has steps left for its nodes finds the same in both trees, and enters more fragments
than it had entered. -/
theorem search_eq (depth depth' : Nat) {entered : List String} {id : NodeId} (hid : id < t'.size)
    (hd : t'.steps entered id ≤ depth) (hd' : t'.steps entered id ≤ depth') :
    t.search depth entered (φ id) = t'.search depth' entered id ∧
      ∀ r, t'.search depth' entered id = some r → ∀ name ∈ entered, name ∈ r := by
  induction depth generalizing depth' entered id with
  | zero => exact absurd hd (Nat.not_le.mpr (steps_pos hid))
  | succ depth ih =>
    cases depth' with
    | zero => exact absurd hd' (Nat.not_le.mpr (steps_pos hid))
    | succ depth' =>
      -- the nodes below are walked one after the other; what is entered on the way only helps
      have walk : ∀ (ids : List NodeId) (now : List String),
          (∀ child ∈ ids, child < t'.size ∧ t'.steps now child ≤ depth ∧
            t'.steps now child ≤ depth') →
          (ids.map φ).foldlM (t.search depth) now = ids.foldlM (t'.search depth') now ∧
            ∀ r, ids.foldlM (t'.search depth') now = some r → ∀ name ∈ now, name ∈ r := by
        intro ids
        induction ids with
        | nil =>
          intro now _
          refine ⟨rfl, fun r hr name hname => ?_⟩
          cases hr
          exact hname
        | cons child ids walk =>
          intro now hall
          obtain ⟨⟨hlt, hc, hc'⟩, hrest⟩ := List.forall_mem_cons.mp hall
          obtain ⟨same, grows⟩ := ih depth' hlt hc hc'
          rw [List.map_cons, List.foldlM_cons, List.foldlM_cons, same]
          cases hr : t'.search depth' now child with
          | none => exact ⟨rfl, nofun⟩
          | some next =>
            have grown := grows next hr
            obtain ⟨hsame, hgrows⟩ := walk next fun x hx =>
              have ⟨hx, hs, hs'⟩ := hrest x hx
              ⟨hx, (steps_mono grown).trans hs, (steps_mono grown).trans hs'⟩
            exact ⟨hsame, fun r hr name hname => hgrows r hr name (grown name hname)⟩
      obtain ⟨n, hn⟩ := node_of_lt hid
      rw [search, search, hn, h.node id n hn]
      dsimp only
      have services : (n.move φ).hasServices = n.hasServices := rfl
      rw [services]
      split
      · exact ⟨rfl, nofun⟩
      · rw [h.below_eq]
        have next : ∀ child ∈ (t'.below entered n).1, child < t'.size ∧
            t'.steps (t'.below entered n).2 child < t'.steps entered id := by
          intro child hchild
          unfold below at hchild ⊢
          split at hchild
          · obtain ⟨hlt, hsize⟩ := ordered.children id n hn child hchild
            exact ⟨hsize, steps_child _ hlt hid⟩
          · rename_i name _
            split at hchild
            · cases hchild
            · rename_i hnew
              rw [if_neg hnew]
              rcases List.mem_append.mp hchild with hchild | hchild
              · obtain ⟨hlt, hsize⟩ := ordered.children id n hn child hchild
                have fewer : t'.steps (name :: entered) child ≤ t'.steps entered child :=
                  steps_mono fun x hx => List.mem_cons_of_mem _ hx
                exact ⟨hsize, fewer.trans_lt (steps_child _ hlt hid)⟩
              · unfold fragmentChildren at hchild
                cases hf : t'.fragments.find? name with
                | none =>
                  rw [hf] at hchild
                  cases hchild
                | some f =>
                  rw [hf] at hchild
                  exact ⟨ordered.fragments name f hf child hchild,
                    steps_spread child hf (by simpa using hnew) hid⟩
        have kept : ∀ name ∈ entered, name ∈ (t'.below entered n).2 := by
          intro name hname
          unfold below
          split
          · exact hname
          · split
            · exact hname
            · exact List.mem_cons_of_mem _ hname
        obtain ⟨same, grows⟩ := walk (t'.below entered n).1 (t'.below entered n).2 fun child hchild =>
          have ⟨hsize, hlt⟩ := next child hchild
          ⟨hsize, by omega, by omega⟩
        exact ⟨same, fun r hr name hname => grows r hr name (kept name hname)⟩

theorem findsServices_eq (ids : List NodeId) (hids : ∀ id ∈ ids, id < t'.size) :
    t.findsServices (ids.map φ) = t'.findsServices ids := by
  have enough : t'.searchDepth ≤ t.searchDepth := by
    unfold searchDepth
    rw [h.fragments]
    exact Nat.succ_le_succ (Nat.mul_le_mul_right _ h.size)
  have walk : ∀ entered, (ids.map φ).foldlM (t.search t.searchDepth) entered =
      ids.foldlM (t'.search t'.searchDepth) entered := by
    induction ids with
    | nil => exact fun _ => rfl
    | cons id ids ih =>
      obtain ⟨first, rest⟩ := List.forall_mem_cons.mp hids
      intro entered
      have bound : t'.steps entered id ≤ t'.searchDepth := (t'.steps_lt entered id).le
      rw [List.map_cons, List.foldlM_cons, List.foldlM_cons,
        (h.search_eq ordered _ _ first (bound.trans enough) bound).1]
      cases t'.search t'.searchDepth entered id with
      | none => rfl
      | some next => exact ih rest next
  unfold findsServices
  rw [walk]

theorem hasAnyServices_eq {id : NodeId} (hid : id < t'.size) :
    t.hasAnyServices (φ id) = t'.hasAnyServices id :=
  h.findsServices_eq ordered [id] (by simpa using hid)

theorem hasServiceDescendants_eq {id : NodeId} (hid : id < t'.size) :
    t.hasServiceDescendants (φ id) = t'.hasServiceDescendants id := by
  obtain ⟨n, hn⟩ := node_of_lt hid
  have children : t.children (φ id) = (t'.children id).map φ := by
    unfold SelectionTree.children
    rw [hn, h.node id n hn]
    rfl
  unfold hasServiceDescendants
  rw [children]
  refine h.findsServices_eq ordered _ fun child hchild => ?_
  unfold SelectionTree.children at hchild
  rw [hn] at hchild
  exact (ordered.children id n hn child hchild).2

/-! ## Inherited arguments -/

omit ordered in
theorem inherited_eq (source : FieldId) {lineage : List NodeId} (hl : ∀ a ∈ lineage, a < t'.size) :
    t.inherited source (lineage.map φ) = t'.inherited source lineage := by
  induction lineage generalizing source with
  | nil => rfl
  | cons a lineage ih =>
    obtain ⟨ha, hl⟩ := List.forall_mem_cons.mp hl
    obtain ⟨n, hn⟩ := node_of_lt ha
    have selects : (n.move φ).selectsField source = n.selectsField source := rfl
    have inherits : (n.move φ).argumentSource? = n.argumentSource? := rfl
    have arguments : (n.move φ).arguments = n.arguments := rfl
    simp only [List.map_cons, inherited, hn, h.node a n hn, selects, inherits, arguments,
      ih _ hl]

omit ordered in
theorem mergedArguments_eq (n : Node) {lineage : List NodeId} (hl : ∀ a ∈ lineage, a < t'.size) :
    t.mergedArguments (n.move φ) (lineage.map φ) = t'.mergedArguments n lineage := by
  have inherits : (n.move φ).argumentSource? = n.argumentSource? := rfl
  have arguments : (n.move φ).arguments = n.arguments := rfl
  simp only [mergedArguments, inherits, arguments, h.inherited_eq _ hl]

end Embeds

/-! ## Deeper searches -/

theorem Embeds.refl (t : SelectionTree) : t.Embeds id t where
  node a n hn := by
    have same : n.move id = n := by simp [Node.move]
    rw [same]
    exact hn
  fragments := rfl
  fixed _ _ _ _ _ := rfl
  size := Nat.le_refl _

/-- A search that may go deeper finds no more. -/
theorem Ordered.search_deeper {t : SelectionTree} (ordered : t.Ordered) {depth : Nat}
    (enough : t.searchDepth ≤ depth) (ids : List NodeId) (entered : List String) :
    ids.foldlM (t.search depth) entered = ids.foldlM (t.search t.searchDepth) entered := by
  have one : ∀ entered id, t.search depth entered id = t.search t.searchDepth entered id := by
    intro entered id
    by_cases hid : id < t.size
    · have bound : t.steps entered id ≤ t.searchDepth := (t.steps_lt entered id).le
      exact ((Embeds.refl t).search_eq ordered depth _ hid (bound.trans enough) bound).1
    · have missing : t.node? id = none := Array.getElem?_eq_none (Nat.le_of_not_lt hid)
      obtain ⟨rest, rfl⟩ : ∃ rest, depth = rest + 1 := by
        unfold searchDepth at enough
        exact ⟨depth - 1, by omega⟩
      unfold searchDepth
      rw [search, search, missing]
  induction ids generalizing entered with
  | nil => rfl
  | cons id ids ih =>
    rw [List.foldlM_cons, List.foldlM_cons, one]
    exact congrArg _ (funext fun next => ih next)

end SelectionTree

end FieldPlan
