import FieldPlan.Selection.Tree
import Mathlib.Tactic.Linarith

/-!
# Walks over selection trees

A walk goes from a node to nodes that were added after it, or enters the fragment that the node
spreads, and enters no fragment twice.

* `SelectionTree.node_of_lt`, `SelectionTree.lt_size` : which numbers are those of nodes;
* `SelectionTree.steps` : how many steps a walk can still take from a node.
-/

namespace FieldPlan

namespace SelectionTree

variable {t : SelectionTree} {entered entered' : List String} {id child : Nat}

theorem lt_size {n : Node} (h : t.node? id = some n) : id < t.size :=
  (Array.getElem?_eq_some_iff.mp h).1

theorem node_of_lt (h : id < t.size) : ∃ n, t.node? id = some n :=
  ⟨_, Array.getElem?_eq_getElem h⟩

def unentered (t : SelectionTree) (entered : List String) : Nat :=
  t.fragments.countP fun f => !entered.contains f.1

/-- A bound on the steps of a walk from a node that enters each fragment at most once. -/
def steps (t : SelectionTree) (entered : List String) (id : NodeId) : Nat :=
  t.unentered entered * t.size + (t.size - id)

theorem unentered_mono (h : ∀ name ∈ entered, name ∈ entered') :
    t.unentered entered' ≤ t.unentered entered := by
  refine List.countP_mono_left fun f _ hf => ?_
  simp only [Bool.not_eq_true', List.contains_eq_mem, decide_eq_false_iff_not] at hf ⊢
  exact fun hm => hf (h _ hm)

theorem unentered_cons {name : String} {f : Fragment} (hf : t.fragments.find? name = some f)
    (hn : entered.contains name = false) : t.unentered (name :: entered) < t.unentered entered := by
  unfold unentered
  have hmem := Dict.mem_of_find? hf
  generalize t.fragments = fragments at hmem
  have still : ∀ x : String × Fragment, (!(name :: entered).contains x.1) = true →
      (!entered.contains x.1) = true := by
    intro x hx
    simp only [Bool.not_eq_true', List.contains_eq_mem, decide_eq_false_iff_not] at hx ⊢
    exact fun hm => hx (List.mem_cons_of_mem _ hm)
  induction fragments with
  | nil => cases hmem
  | cons x fragments ih =>
    rw [List.countP_cons, List.countP_cons]
    rcases List.mem_cons.mp hmem with rfl | hmem
    · have rest := List.countP_mono_left (l := fragments) fun x _ => still x
      rw [if_neg (by simp), if_pos (by rw [hn]; rfl)]
      omega
    · have rest := ih hmem
      split
      · rename_i hx
        rw [if_pos (still x hx)]
        omega
      · split <;> omega

theorem steps_pos (h : id < t.size) : 0 < t.steps entered id := by
  unfold steps
  omega

theorem steps_mono (h : ∀ name ∈ entered, name ∈ entered') :
    t.steps entered' id ≤ t.steps entered id := by
  have := Nat.mul_le_mul_right t.size (unentered_mono (t := t) h)
  unfold steps
  omega

theorem steps_child (entered : List String) (h : id < child) (hid : id < t.size) :
    t.steps entered child < t.steps entered id := by
  unfold steps
  omega

theorem steps_spread {name : String} {f : Fragment} (child : Nat) (hf : t.fragments.find? name = some f)
    (hn : entered.contains name = false) (hid : id < t.size) :
    t.steps (name :: entered) child < t.steps entered id := by
  have fewer := Nat.mul_le_mul_right t.size (Nat.succ_le_of_lt (unentered_cons hf hn))
  rw [Nat.succ_mul] at fewer
  unfold steps
  omega

/-- A walk through a tree takes fewer steps than this. -/
theorem steps_lt (t : SelectionTree) (entered : List String) (id : NodeId) :
    t.steps entered id < t.size * (t.fragments.length + 1) + 1 := by
  have all : t.unentered entered ≤ t.fragments.length := List.countP_le_length
  have := Nat.mul_le_mul_right t.size all
  unfold steps
  rw [Nat.mul_comm t.size, Nat.succ_mul]
  omega

end SelectionTree

end FieldPlan
