import FieldPlan.Proofs.Expr.Swap
import FieldPlan.Proofs.Expr.Value
import Mathlib.Algebra.GroupWithZero.Nat
import Mathlib.Algebra.Order.BigOperators.Group.List
import Mathlib.Algebra.Order.Group.Nat

/-!
# Calls in expressions

* `denotes`, `Expr.calls` : whether an expression denotes a service, and how often a method of a
  service is called, under the bindings of a plan;
* `Expr.shown` : the same count outside of parts that are hidden, `Expr.shown_swap_le`,
  `Expr.le_shown_swap` : a swap by parameters leaves what is called outside of what it replaces;
* `Expr.KeysPure` : no sort key calls a service.
-/

namespace FieldPlan

/-! ## Counting calls -/

/-- Whether an expression denotes a service under bindings: its handle, or a parameter bound to it.
-/
def denotes (bindings : List (Param × Binding)) (name : ServiceName) : Expr → Bool
  | .service s => s == name
  | .param p => bindings.any fun b =>
    match b.2 with
    | .service s => b.1.id == p.id && s == name
    | .value _ => false
  | _ => false

namespace Expr

def isCall (bindings : List (Param × Binding)) (name : ServiceName) (method : String) : Expr → Bool
  | .invoke r m _ _ => m == method && denotes bindings name r
  | _ => false

def calls (bindings : List (Param × Binding)) (name : ServiceName) (method : String) (e : Expr) :
    Nat :=
  e.subterms.countP (isCall bindings name method)

theorem sizeOf_lt_of_child {e c : Expr} (h : c ∈ e.children) : sizeOf c < sizeOf e := by
  cases e with
  | builtin f args =>
    have smaller : sizeOf c < sizeOf args := List.sizeOf_lt_of_mem h
    simp only [builtin.sizeOf_spec]
    omega
  | invoke r m args t =>
    simp only [invoke.sizeOf_spec]
    rcases List.mem_cons.mp h with rfl | h
    · omega
    · have smaller : sizeOf c < sizeOf args := List.sizeOf_lt_of_mem h
      omega
  | record name fields =>
    obtain ⟨field, hf, rfl⟩ := List.mem_map.mp h
    have smaller : sizeOf field < sizeOf fields := List.sizeOf_lt_of_mem hf
    have pair : sizeOf field = 1 + sizeOf field.1 + sizeOf field.2 := rfl
    simp only [record.sizeOf_spec]
    omega
  | _ => simp_all [children] <;> grind

/-- How many parts satisfy a test outside of the parts that are hidden. -/
def shown (K P : Expr → Bool) (e : Expr) : Nat :=
  if K e then 0
  else (if P e then 1 else 0) + (e.children.attach.map fun c => shown K P c.1).sum
termination_by sizeOf e
decreasing_by exact sizeOf_lt_of_child c.2

section Shown

variable {K P Q : Expr → Bool} {e : Expr} {f : Expr → Option Expr}

theorem shown_hidden (h : K e = true) : shown K P e = 0 := by
  rw [shown, if_pos h]

theorem shown_eq (h : K e = false) :
    shown K P e = (if P e then 1 else 0) + (e.children.map (shown K P)).sum := by
  rw [shown, if_neg (by simp [h]), List.attach_map_val]

theorem shown_le : shown K P e ≤ (if P e then 1 else 0) + (e.children.map (shown K P)).sum := by
  cases h : K e with
  | true =>
    rw [shown_hidden h]
    exact Nat.zero_le _
  | false => exact Nat.le_of_eq (shown_eq h)

theorem shown_nothing : shown (fun _ => false) P e = e.subterms.countP P := by
  induction e using partwise with
  | h e ih =>
    rw [shown_eq rfl, subterms_eq, List.countP_cons, List.countP_flatMap, Nat.add_comm]
    congr 2
    exact List.map_congr_left ih

/-- A swap by parameters leaves only parts that were there outside of what it replaces. -/
theorem shown_swap_le (hf : ∀ x r, f x = some r → ∃ q, r = .param q) (hP : ∀ q, P (.param q) = false)
    (hQ : ∀ x ∈ e.subterms, f x = none → P (x.mapParts (swap f)) = true → Q x = true) :
    shown K P (e.swap f) ≤ shown (fun x => (f x).isSome || K (x.swap f)) Q e := by
  induction e using partwise with
  | h e ih =>
    cases hr : f e with
    | some r =>
      obtain ⟨q, rfl⟩ := hf e r hr
      rw [swap_some hr]
      refine Nat.le_trans shown_le ?_
      simp [hP, children]
    | none =>
      cases hK : K (e.swap f) with
      | true =>
        rw [shown_hidden hK]
        exact Nat.zero_le _
      | false =>
        rw [shown_eq hK, shown_eq (by simp [hr, hK]), swap_none hr, children_mapParts, List.map_map]
        refine Nat.add_le_add ?_ (List.sum_le_sum fun c hc => ?_)
        · have here := hQ e (self_mem_subterms e) hr
          cases hPe : P (e.mapParts (swap f)) with
          | true => rw [here hPe]
          | false => exact Nat.zero_le _
        · exact ih c hc fun x hx => hQ x (mem_subterms_of_child hc hx)

/-- A swap leaves all parts that were there outside of what it replaces. -/
theorem le_shown_swap
    (hQ : ∀ x ∈ e.subterms, f x = none → P x = true → Q (x.mapParts (swap f)) = true) :
    shown (fun x => (f x).isSome || K (x.swap f)) P e ≤ shown K Q (e.swap f) := by
  induction e using partwise with
  | h e ih =>
    cases hr : f e with
    | some r =>
      rw [shown_hidden (by simp [hr])]
      exact Nat.zero_le _
    | none =>
      cases hK : K (e.swap f) with
      | true =>
        rw [shown_hidden (by simp [hK])]
        exact Nat.zero_le _
      | false =>
        rw [shown_eq (by simp [hr, hK]), shown_eq hK, swap_none hr, children_mapParts, List.map_map]
        refine Nat.add_le_add ?_ (List.sum_le_sum fun c hc => ?_)
        · have here := hQ e (self_mem_subterms e) hr
          cases hPe : P e with
          | true => rw [here hPe]
          | false => exact Nat.zero_le _
        · exact ih c hc fun x hx => hQ x (mem_subterms_of_child hc hx)

end Shown

/-! ## Sort keys -/

def isInvoke : Expr → Bool
  | .invoke _ _ _ _ => true
  | _ => false

/-- No sort key calls a service. -/
def KeysPure (e : Expr) : Prop :=
  ∀ x key, .lambda x key ∈ e.subterms → ∀ y ∈ key.subterms, y.isInvoke = false

theorem KeysPure.child {e c : Expr} (h : e.KeysPure) (hc : c ∈ e.children) : c.KeysPure :=
  fun x key hx => h x key (mem_subterms_of_child hc hx)

theorem keysPure_of_children {e : Expr} (he : e.lambda? = none)
    (h : ∀ c ∈ e.children, c.KeysPure) : e.KeysPure := by
  intro x key hx
  rcases mem_subterms.mp hx with rfl | ⟨c, hc, hx⟩
  · cases he
  · exact h c hc x key hx

theorem KeysPure.swap {e : Expr} (h : e.KeysPure) {f : Expr → Option Expr}
    (hf : ∀ x r, f x = some r → ∃ q, r = .param q) : (e.swap f).KeysPure := by
  have param : ∀ {q : Param} {y : Expr}, y ∈ (Expr.param q).subterms → y = .param q := by
    intro q y hy
    simpa [subterms] using hy
  intro x key hx y hy
  rcases mem_subterms_swap hx with ⟨z, hz, r, hr, hx⟩ | ⟨z, hz, -, hkey⟩
  · obtain ⟨q, rfl⟩ := hf z r hr
    cases param hx
  · cases z <;> cases hkey
    rcases mem_subterms_swap hy with ⟨u, hu, r, hr, hy⟩ | ⟨u, hu, -, rfl⟩
    · obtain ⟨q, rfl⟩ := hf u r hr
      cases param hy
      rfl
    · have pure := h _ _ hz u hu
      cases u <;> first | rfl | cases pure

end Expr

end FieldPlan
