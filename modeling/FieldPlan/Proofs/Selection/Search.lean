import FieldPlan.Proofs.Selection.Ordered
import FieldPlan.Proofs.Selection.Walk
import Mathlib.Data.List.Basic
import Mathlib.Logic.Relation

/-!
# Searches for services

A search enters each fragment once and stops at a bounded depth. It misses nothing all the same.

* `SelectionTree.Forward` : what is selected below a node was added after it; so it is in the tree of
  a request (`Request.build_forward`);
* `SelectionTree.Leads` : a node is selected in another one or in the fragment that it spreads;
* `SelectionTree.Explored` : what a search has seen that found nothing;
* `SelectionTree.not_hasServices` : where a search finds nothing, no node that is led to selects a
  field backed by a service.
-/

namespace FieldPlan

namespace SelectionTree

variable {t : SelectionTree}

/-! ## Numbers of nodes -/

/-- What is selected below a node was added after it. -/
def Forward (t : SelectionTree) : Prop :=
  ∀ id n, t.node? id = some n → ∀ child ∈ n.children, id < child

theorem Ordered.forward (h : t.Ordered) : t.Forward := fun id n hn child hc =>
  (h.children id n hn child hc).1

/-! ## Where nodes lead -/

/-- A node is selected in another one, or in the fragment that the other one spreads. -/
inductive Leads (t : SelectionTree) (id next : NodeId) : Prop
  | child {n : Node} : t.node? id = some n → n.spread? = none → next ∈ n.children → Leads t id next
  | spread {n : Node} {name : String} : t.node? id = some n → n.spread? = some name →
    next ∈ t.fragmentChildren name → Leads t id next

/-- What a search has seen that found no service: nodes whose children it has seen, and of the
fragments that it entered the selections. -/
structure Explored (t : SelectionTree) (entered entered' : List String) (seen : NodeId → Prop) :
    Prop where
  grows : ∀ name ∈ entered, name ∈ entered'
  unserved : ∀ id n, seen id → t.node? id = some n → n.hasServices = false
  children : ∀ id n, seen id → t.node? id = some n → n.spread? = none → ∀ child ∈ n.children,
    seen child
  spreads : ∀ id n name, seen id → t.node? id = some n → n.spread? = some name → name ∈ entered'
  fragments : ∀ name ∈ entered', name ∈ entered ∨ ∀ child ∈ t.fragmentChildren name, seen child

namespace Explored

variable {entered entered' entered'' : List String} {seen seen' : NodeId → Prop}

theorem nothing (entered : List String) : t.Explored entered entered fun _ => False :=
  ⟨fun _ h => h, fun _ _ h => h.elim, fun _ _ h => h.elim, fun _ _ _ h => h.elim,
    fun _ h => .inl h⟩

/-- A search that goes on. -/
theorem trans (h : t.Explored entered entered' seen) (h' : t.Explored entered' entered'' seen') :
    t.Explored entered entered'' fun id => seen id ∨ seen' id where
  grows name hn := h'.grows name (h.grows name hn)
  unserved id n hseen := hseen.elim (h.unserved id n) (h'.unserved id n)
  children id n hseen hn hs child hc :=
    hseen.imp (fun hseen => h.children id n hseen hn hs child hc)
      fun hseen => h'.children id n hseen hn hs child hc
  spreads id n name hseen hn hs :=
    hseen.elim (fun hseen => h'.grows name (h.spreads id n name hseen hn hs))
      fun hseen => h'.spreads id n name hseen hn hs
  fragments name hn := by
    rcases h'.fragments name hn with hn | hall
    · exact (h.fragments name hn).imp_right fun hall child hc => .inl (hall child hc)
    · exact .inr fun child hc => .inr (hall child hc)

/-- Where a search that has entered no fragment before finds nothing, nothing is found where what it
has seen leads. -/
theorem closed (h : t.Explored [] entered' seen) {id next : NodeId} (hseen : seen id)
    (hleads : t.Leads id next) : seen next := by
  cases hleads with
  | child hn hs hc => exact h.children id _ hseen hn hs next hc
  | spread hn hs hc =>
    rcases h.fragments _ (h.spreads id _ _ hseen hn hs) with hn | hall
    · cases hn
    · exact hall next hc

end Explored

/-! ## The depth of searches -/

/-- Fewer steps are left below a node. -/
theorem steps_below (forward : t.Forward) {entered : List String} {id : NodeId} {n : Node}
    (hn : t.node? id = some n) {child : NodeId} (hc : child ∈ (t.below entered n).1) :
    t.steps (t.below entered n).2 child < t.steps entered id := by
  have hid := lt_size hn
  have later : child ∈ n.children → id < child := forward id n hn child
  unfold below at hc ⊢
  cases hs : n.spread? with
  | none =>
    rw [hs] at hc
    exact steps_child entered (later hc) hid
  | some name =>
    rw [hs] at hc
    dsimp only at hc ⊢
    split at hc
    · cases hc
    · rename_i hnew
      rw [if_neg hnew]
      rcases List.mem_append.mp hc with hc | hc
      · exact Nat.lt_of_le_of_lt (steps_mono fun _ => List.mem_cons_of_mem _)
          (steps_child entered (later hc) hid)
      · unfold fragmentChildren at hc
        cases hf : t.fragments.find? name with
        | none =>
          rw [hf] at hc
          cases hc
        | some f => exact steps_spread child hf (by simpa using hnew) hid

/-! ## Searches that find nothing -/

/-- A search that goes on from the children of a node to what it finds there. -/
theorem Explored.visit {entered entered' : List String} {seen : NodeId → Prop} {id : NodeId}
    {n : Node} (hn : t.node? id = some n) (hserved : n.hasServices = false)
    (h : t.Explored (t.below entered n).2 entered' seen)
    (hall : ∀ child ∈ (t.below entered n).1, seen child) :
    t.Explored entered entered' fun other => other = id ∨ seen other := by
  have unspread : n.spread? = none → t.below entered n = (n.children, entered) := fun hs => by
    unfold below
    rw [hs]
  have spread : ∀ name, n.spread? = some name →
      (name ∈ entered ∧ (t.below entered n).2 = entered) ∨
        ((t.below entered n).2 = name :: entered ∧
          ∀ child ∈ t.fragmentChildren name, child ∈ (t.below entered n).1) := by
    intro name hs
    unfold below
    rw [hs]
    dsimp only
    split
    · rename_i hold
      exact .inl ⟨by simpa using hold, rfl⟩
    · exact .inr ⟨rfl, fun child hc => List.mem_append_right _ hc⟩
  have within : ∀ name ∈ entered, name ∈ (t.below entered n).2 := by
    intro name hname
    cases hs : n.spread? with
    | none => rwa [unspread hs]
    | some other =>
      rcases spread other hs with ⟨-, he⟩ | ⟨he, -⟩
      · rwa [he]
      · rw [he]
        exact List.mem_cons_of_mem _ hname
  constructor
  · exact fun name hname => h.grows name (within name hname)
  · rintro other m (rfl | hseen) hm
    · cases hn.symm.trans hm
      exact hserved
    · exact h.unserved other m hseen hm
  · rintro other m (rfl | hseen) hm hs child hc
    · cases hn.symm.trans hm
      exact .inr (hall child (by rwa [unspread hs]))
    · exact .inr (h.children other m hseen hm hs child hc)
  · rintro other m name (rfl | hseen) hm hs
    · cases hn.symm.trans hm
      rcases spread name hs with ⟨hold, -⟩ | ⟨he, -⟩
      · exact h.grows name (within name hold)
      · exact h.grows name (he ▸ List.mem_cons_self)
    · exact h.spreads other m name hseen hm hs
  · intro name hname
    rcases h.fragments name hname with hold | hnew
    · cases hs : n.spread? with
      | none =>
        rw [unspread hs] at hold
        exact .inl hold
      | some other =>
        rcases spread other hs with ⟨-, he⟩ | ⟨he, inside⟩
        · exact .inl (he ▸ hold)
        · rw [he] at hold
          rcases List.mem_cons.mp hold with rfl | hold
          · exact .inr fun child hc => .inr (hall child (inside child hc))
          · exact .inl hold
    · exact .inr fun child hc => .inr (hnew child hc)

/-- Searches of nodes one after the other that find nothing. -/
theorem foldlM_explored {depth : Nat}
    (each : ∀ {entered entered' id}, t.steps entered id < depth →
      t.search depth entered id = some entered' → ∃ seen, t.Explored entered entered' seen ∧ seen id)
    {ids : List NodeId} {entered entered' : List String}
    (hsteps : ∀ id ∈ ids, t.steps entered id < depth)
    (h : ids.foldlM (t.search depth) entered = some entered') :
    ∃ seen, t.Explored entered entered' seen ∧ ∀ id ∈ ids, seen id := by
  induction ids generalizing entered with
  | nil =>
    cases h
    exact ⟨_, .nothing _, by simp⟩
  | cons id ids ih =>
    obtain ⟨hfirst, hrest⟩ := List.forall_mem_cons.mp hsteps
    rw [List.foldlM_cons] at h
    obtain ⟨between, hid, hids⟩ := Option.bind_eq_some_iff.mp h
    obtain ⟨first, explored, hseen⟩ := each hfirst hid
    obtain ⟨others, explored', hothers⟩ := ih (fun other ho =>
      Nat.lt_of_le_of_lt (steps_mono explored.grows) (hrest other ho)) hids
    exact ⟨_, explored.trans explored', List.forall_mem_cons.mpr
      ⟨.inl hseen, fun other ho => .inr (hothers other ho)⟩⟩

/-- What a search leaves behind that finds nothing. -/
theorem search_explored (forward : t.Forward) {depth : Nat} {entered entered' : List String}
    {id : NodeId} (hdepth : t.steps entered id < depth)
    (h : t.search depth entered id = some entered') :
    ∃ seen, t.Explored entered entered' seen ∧ seen id := by
  induction depth generalizing entered entered' id with
  | zero => exact absurd hdepth (Nat.not_lt_zero _)
  | succ depth ih =>
    rw [search] at h
    cases hn : t.node? id with
    | none =>
      rw [hn] at h
      cases h
      refine ⟨(· = id), ⟨fun _ h => h, ?_, ?_, ?_, fun _ h => .inl h⟩, rfl⟩
      · rintro _ n rfl hn'
        cases hn.symm.trans hn'
      · rintro _ n rfl hn'
        cases hn.symm.trans hn'
      · rintro _ n _ rfl hn'
        cases hn.symm.trans hn'
    | some n =>
      rw [hn] at h
      dsimp only at h
      split at h
      · cases h
      · rename_i hserved
        obtain ⟨seen, explored, hall⟩ := foldlM_explored ih (fun child hc =>
          Nat.lt_of_lt_of_le (steps_below forward hn hc) (Nat.le_of_lt_succ hdepth)) h
        exact ⟨_, explored.visit hn (by simpa using hserved) hall, .inl rfl⟩

/-- Where a search from nodes finds nothing, no node that these lead to selects a field backed by a
service. -/
theorem not_hasServices (forward : t.Forward) {ids : List NodeId} (h : t.findsServices ids = false)
    {id next : NodeId} (hid : id ∈ ids) (hleads : Relation.ReflTransGen t.Leads id next) {n : Node}
    (hn : t.node? next = some n) : n.hasServices = false := by
  unfold findsServices at h
  rw [Option.isNone_eq_false_iff, Option.isSome_iff_exists] at h
  obtain ⟨entered, hfold⟩ := h
  obtain ⟨seen, explored, hseen⟩ := foldlM_explored (search_explored forward)
    (fun id _ => t.steps_lt [] id) hfold
  have reached : ∀ {next}, Relation.ReflTransGen t.Leads id next → seen next := by
    intro next hleads
    induction hleads with
    | refl => exact hseen id hid
    | tail _ hstep ih => exact explored.closed ih hstep
  exact explored.unserved next n (reached hleads) hn

end SelectionTree

/-- In the tree of a request nodes are below nodes that were added earlier. -/
theorem Request.build_forward {schema : Schema} {t : SelectionTree} {r : Request}
    (h : r.build schema = .ok t) : t.Forward :=
  (Request.build_ordered h).forward

end FieldPlan
