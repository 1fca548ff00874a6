import FieldPlan.Proofs.Expr.Loose
import FieldPlan.Proofs.Expr.Traversal

/-!
# Positions in expressions

* `Expr.parts_withParts` : the parts of an expression that was put back together;
* `Expr.Within` : the positions in an expression, with the parameters bound around them;
* `Rule.Answers` : the answers of a rule at the parts of an expression.
-/

namespace FieldPlan

open Expr

namespace Expr

variable {e : Expr}

/-! ## Parts put back together -/

theorem param_of_withParts {e : Expr} {es : List Expr} {q : Param} (h : e.withParts es = .param q) :
    e = .param q := by
  unfold withParts at h
  split at h <;> first | exact h | cases h

theorem bound_withParts (e : Expr) (es : List Expr) : (e.withParts es).bound? = e.bound? := by
  unfold withParts
  split <;> rfl

theorem parts_eq (e : Expr) (bound : List Param) :
    e.parts bound = (e.parts []).map fun x => (x.1 ++ bound, x.2) := by
  cases e <;> simp [parts, Function.comp_def]

theorem ids_of_bound {p : Param} (h : e.bound? = some p) : p.id ∈ e.ids :=
  mem_ids_iff.mpr (.inl ⟨p, own_of_bound h, rfl⟩)

theorem parts_of_unbound {e : Expr} (h : e.bound? = none) (bound : List Param) :
    e.parts bound = e.children.map fun c => (bound, c) := by
  cases e <;> first | rfl | cases h

theorem bound_of_mem_parts {x : List Param × Expr} (hx : x ∈ e.parts []) {p : Param}
    (hp : p ∈ x.1) : e.bound? = some p := by
  cases hb : e.bound? with
  | none =>
    rw [parts_of_unbound hb, List.mem_map] at hx
    obtain ⟨c, -, rfl⟩ := hx
    cases hp
  | some q => cases e <;> cases hb <;> simp [parts] at hx <;> grind

theorem map_zip_around (bound : List Param) {cs es : List Expr} (h : es.length = cs.length) :
    ((cs.map fun c => (bound, c)).zip es).map (fun y => (y.1.1, y.2)) =
      es.map fun c => (bound, c) := by
  induction cs generalizing es with
  | nil => rw [List.eq_nil_of_length_eq_zero h]; rfl
  | cons c cs ih =>
    match es, h with
    | d :: ds, h => simp [ih (Nat.succ.inj h)]

/-- Put back together, the parts keep the parameters that are bound around them. -/
theorem parts_withParts {e : Expr} {es : List Expr} (h : es.length = e.children.length)
    (bound : List Param) :
    (e.withParts es).parts bound = ((e.parts bound).zip es).map fun y => (y.1.1, y.2) := by
  cases hb : e.bound? with
  | none =>
    rw [parts_of_unbound hb, parts_of_unbound ((bound_withParts e es).trans hb), map_zip_around _ h,
      children_withParts h]
  | some p =>
    cases e <;> cases hb <;> rcases es with _ | ⟨_, _ | ⟨_, _ | ⟨_, _ | _⟩⟩⟩ <;>
      simp_all [withParts, parts, children]

theorem mem_parts_around {x : List Param × Expr} (hx : x ∈ e.parts []) (bound : List Param) :
    (x.1 ++ bound, x.2) ∈ e.parts bound := by
  rw [parts_eq]
  exact List.mem_map_of_mem hx

theorem mem_zip_parts {es : List Expr} {y : (List Param × Expr) × Expr}
    (h : y ∈ (e.parts []).zip es) (bound : List Param) :
    ((y.1.1 ++ bound, y.1.2), y.2) ∈ (e.parts bound).zip es := by
  rw [parts_eq, List.zip_map_left]
  exact List.mem_map.mpr ⟨y, h, rfl⟩

theorem mem_parts_withParts {es : List Expr} (hl : es.length = e.children.length)
    {bound : List Param} {x : List Param × Expr} (hx : x ∈ (e.withParts es).parts bound) :
    ∃ y ∈ (e.parts []).zip es, x = (y.1.1 ++ bound, y.2) := by
  rw [parts_withParts hl, parts_eq, List.zip_map_left, List.map_map, List.mem_map] at hx
  obtain ⟨y, hy, rfl⟩ := hx
  exact ⟨y, hy, rfl⟩

/-! ## Positions -/

/-- The positions in an expression with these parameters bound around it. -/
inductive Within (bound : List Param) (e : Expr) : List Param → Expr → Prop
  | self : Within bound e bound e
  | part {around : List Param} {s : Expr} {x : List Param × Expr} :
    Within bound e around s → x ∈ s.parts around → Within bound e x.1 x.2

/-- A position in a part is one in the expression. -/
theorem Within.of_part {bound around : List Param} {s : Expr} {x : List Param × Expr}
    (hx : x ∈ e.parts bound) (h : Within x.1 x.2 around s) : Within bound e around s := by
  induction h with
  | self => exact .part .self hx
  | part _ hy ih => exact .part ih hy

/-- A position is the expression itself or one in a part. -/
theorem within_iff {bound around : List Param} {s : Expr} : Within bound e around s ↔
    (around = bound ∧ s = e) ∨ ∃ x ∈ e.parts bound, Within x.1 x.2 around s := by
  constructor
  · intro h
    induction h with
    | self => exact .inl ⟨rfl, rfl⟩
    | part _ hx ih =>
      rcases ih with ⟨rfl, rfl⟩ | ⟨y, hy, h⟩
      · exact .inr ⟨_, hx, .self⟩
      · exact .inr ⟨y, hy, .part h hx⟩
  · rintro (⟨rfl, rfl⟩ | ⟨x, hx, h⟩)
    · exact .self
    · exact h.of_part hx

theorem Within.mem_subterms {bound around : List Param} {s : Expr} (h : Within bound e around s) :
    s ∈ e.subterms := by
  induction h with
  | self => exact self_mem_subterms e
  | part _ hx ih =>
    exact subterms_trans ih
      (mem_subterms_of_child (mem_children_of_parts hx) (self_mem_subterms _))

/-- The parameters bound around a position are bound in the expression or around it. -/
theorem Within.bound {bound around : List Param} {s : Expr} (h : Within bound e around s) :
    ∀ p ∈ around, p ∈ bound ∨ p.id ∈ e.binders := by
  induction h with
  | self => exact fun p hp => .inl hp
  | @part around s x h hx ih =>
    intro p hp
    obtain ⟨inner, hsplit, hmem⟩ := mem_parts hx
    rw [hsplit] at hp
    rcases List.mem_append.mp hp with hp | hp
    · exact .inr (binders_of_subterm h.mem_subterms (mem_binders.mpr
        ⟨s, self_mem_subterms s, p, bound_of_mem_parts hmem hp, rfl⟩))
    · exact ih p hp

end Expr

def Rule.Answers (rule : Rule) (e r : Expr) : Prop :=
  ∃ x ∈ e.subterms, ∃ bound, rule.pre x bound = some r ∨ rule.post x bound = some r

theorem Rule.Answers.of_child {rule : Rule} {e c r : Expr} (h : rule.Answers c r)
    (hc : c ∈ e.children) : rule.Answers e r := by
  obtain ⟨x, hx, h⟩ := h
  exact ⟨x, Expr.mem_subterms_of_child hc hx, h⟩

theorem Rule.pre_rename_of_eq {p q x : Param} (h : x.id = p.id) (bound : List Param) :
    (Rule.rename p q).pre (.param x) bound = some (.param q) :=
  pre_param.mpr ⟨x, rfl, h, rfl⟩

/-- The renaming of a parameter answers with the other parameter. -/
theorem Rule.Answers.of_rename {p q : Param} {e r : Expr} (h : (Rule.rename p q).Answers e r) :
    r = .param q ∧ p.id ∈ e.ids := by
  obtain ⟨x, hx, bound, hr | hr⟩ := h
  · obtain ⟨y, rfl, hy, rfl⟩ := pre_rename hr
    exact ⟨rfl, Expr.mem_ids.mpr ⟨_, hx, y, rfl, hy⟩⟩
  · cases hr

/-! ## Positions of a type -/

namespace Expr

/-- What stands at a position is of a type up to nullability, is no literal, and mentions no parameter
that is bound around it. -/
structure Matches (t : Ty) (around : List Param) (s : Expr) : Prop where
  shape : s.ty.sameShape t = true
  notLiteral : Rule.isLiteral s = false
  unbound : ∀ p ∈ around, s.mentions p = false

/-- What stands at a position is a parameter of a type up to nullability that is not bound around it. -/
def MatchesParam (t : Ty) (around : List Param) (s : Expr) : Prop :=
  ∃ p, s = .param p ∧ p.ty.sameShape t = true ∧ ∀ q ∈ around, q.id ≠ p.id

end Expr

/-- The rule answers at an occurrence of the replacement with the occurrence itself, and else at what
is of the type. -/
theorem Rule.byType_post {t : Ty} {r s d : Expr} {around : List Param} :
    (Rule.byType t r).post s around = some d ↔
      ((s == r) = true ∧ d = s) ∨ ((s == r) = false ∧ s.Matches t around ∧ d = r) := by
  have matches_iff : s.Matches t around ↔ isLiteral s = false ∧ s.ty.sameShape t = true ∧
      around.any s.mentions = false := by
    rw [List.any_eq_false]
    exact ⟨fun h => ⟨h.notLiteral, h.shape, fun p hp => by simp [h.unbound p hp]⟩,
      fun ⟨h₁, h₂, h₃⟩ => ⟨h₂, h₁, fun p hp => by simpa using h₃ p hp⟩⟩
  rw [matches_iff]
  simp only [byType]
  generalize around.any s.mentions = bound
  cases s == r <;> cases isLiteral s <;> cases s.ty.sameShape t <;> cases bound <;>
    simp <;> exact eq_comm

theorem Rule.paramsByType_pre {t : Ty} {r s d : Expr} {around : List Param} :
    (Rule.paramsByType t r).pre s around = some d ↔
      (s == r) = false ∧ s.MatchesParam t around ∧ d = r := by
  cases s with
  | param p =>
    have matches_iff : (Expr.param p).MatchesParam t around ↔
        p.ty.sameShape t = true ∧ around.any (·.id == p.id) = false := by
      simp [MatchesParam]
    rw [matches_iff]
    simp only [paramsByType]
    generalize around.any (·.id == p.id) = bound
    cases Expr.param p == r <;> cases p.ty.sameShape t <;> cases bound <;> simp
    exact eq_comm
  | _ => simp [paramsByType, MatchesParam]

end FieldPlan
