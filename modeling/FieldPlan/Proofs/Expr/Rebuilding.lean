import FieldPlan.Proofs.Expr.Origins
import Mathlib.Data.List.Nodup

/-!
# Expressions that are rebuilt

An expression is rebuilt when copies are put at some positions and what stands at the others is kept up
to the parameters that are bound, which are exchanged one for one.

* `Expr.frame` : what an expression is apart from its parts, types and parameters;
* `Expr.Corresponds` : parameters with corresponding binders;
* `Expr.Rebuilds` : an expression rebuilt with copies put at some positions;
* `Expr.Unshadowed`, `Expr.rebuilds_self` : an expression that binds no parameter again in its own scope is
  rebuilt as itself.
-/

namespace FieldPlan

namespace Expr

/-! ## Frames -/

/-- An expression without its parts, types and parameters. -/
def frame : Expr → Expr
  | .param _ => .param default
  | .member _ name _ => .member (.null .json) name .json
  | .condition _ _ _ => .condition (.null .json) (.null .json) (.null .json)
  | .equal _ _ => .equal (.null .json) (.null .json)
  | .builtin f args => .builtin f (args.map fun _ => .null .json)
  | .invoke _ method args t => .invoke (.null .json) method (args.map fun _ => .null .json) t
  | .lambda _ _ => .lambda default (.null .json)
  | .record name fields => .record name ((fields.map (·.1)).map fun field => (field, .null .json))
  | .select _ _ _ => .select (.null .json) default (.null .json)
  | .letIn _ _ _ => .letIn default (.null .json) (.null .json)
  | e => e

theorem frame_withParts {e : Expr} {es : List Expr} (h : es.length = e.children.length) :
    (e.withParts es).frame = e.frame := by
  cases e with
  | builtin f args =>
    have same : es.map (fun _ => Expr.null .json) = args.map fun _ => .null .json := by
      simpa [List.map_const', children] using h
    simp only [withParts, frame, same]
  | record name fields =>
    have long : (fields.map (·.1)).length ≤ es.length := by simp [h, children]
    simp only [withParts, frame, List.map_fst_zip long]
  | invoke r m args t =>
    rcases es with _ | ⟨r', args'⟩
    · simp [children] at h
    · have same : args'.map (fun _ => Expr.null .json) = args.map fun _ => .null .json := by
        simpa [List.map_const', children] using h
      simp only [withParts, frame, same]
  | _ =>
    rcases es with _ | ⟨_, _ | ⟨_, _ | ⟨_, _ | _⟩⟩⟩ <;> simp_all [withParts, frame, children]

theorem frame_param {e : Expr} {p' : Param} (h : (Expr.param p').frame = e.frame) : ∃ p, e = .param p := by
  cases e <;> simp [frame] at h
  exact ⟨_, rfl⟩

theorem bound_of_frame {e d : Expr} (same : d.frame = e.frame) : d.bound? = none ↔ e.bound? = none := by
  cases e <;> cases d <;> simp [frame, Expr.bound?] at same ⊢

/-- Expressions of one frame bind as many parameters around each part. -/
theorem length_of_frame {e d : Expr} (same : d.frame = e.frame)
    {y : (List Param × Expr) × List Param × Expr}
    (hy : y ∈ (e.parts []).zip (d.parts [])) : y.1.1.length = y.2.1.length := by
  have unbound := bound_of_frame same
  cases he : e.bound? with
  | none =>
    rw [parts_of_unbound he, parts_of_unbound (unbound.mpr he)] at hy
    obtain ⟨c, -, hc⟩ := List.mem_map.mp (List.of_mem_zip hy).1
    obtain ⟨c', -, hc'⟩ := List.mem_map.mp (List.of_mem_zip hy).2
    rw [← hc, ← hc']
  | some q =>
    cases e <;> cases he <;> cases d <;> simp only [frame, reduceCtorEq] at same <;>
      simp [Expr.parts] at hy <;> grind

/-! ## Binders -/

/-- A parameter has in one expression the binder that corresponds to the one which another parameter has
in another expression, given the corresponding binders around, the innermost first; free, they are the
same. -/
def Corresponds : List (Param × Param) → Param → Param → Prop
  | [], p, p' => p' = p
  | (q, q') :: binders, p, p' =>
    if p.id = q.id then p'.id = q'.id else p'.id ≠ q'.id ∧ Corresponds binders p p'

/-- An expression rebuilt, given the corresponding binders around: a copy stands at a position with a
hit, and mentions none of the binders; elsewhere the expression is what it was, its parts rebuilt, its
binder none of those around, and parameters have corresponding binders. -/
inductive Rebuilds (hit : List Param → Expr → Prop) (copy : Expr → Prop) :
    List (Param × Param) → Expr → Expr → Prop
  | put {binders : List (Param × Param)} {e d : Expr} : hit (binders.map (·.1)) e → copy d →
    (∀ y ∈ binders, y.2.id ∉ d.ids) → Rebuilds hit copy binders e d
  | keep {binders : List (Param × Param)} {e d : Expr} : ¬hit (binders.map (·.1)) e →
    d.frame = e.frame → (∀ p p', e = .param p → d = .param p' → Corresponds binders p p') →
    (∀ q, d.bound? = some q → ∀ y ∈ binders, y.2.id ≠ q.id) →
    (∀ y ∈ (e.parts []).zip (d.parts []),
      Rebuilds hit copy (y.1.1.zip y.2.1 ++ binders) y.1.2 y.2.2) → Rebuilds hit copy binders e d

variable {hit : List Param → Expr → Prop} {copy : Expr → Prop} {binders : List (Param × Param)}
  {e d : Expr}

/-- The binders where those that correspond to `x` are exchanged. -/
def rebinders (x x' : Param) (binders : List (Param × Param)) : List (Param × Param) :=
  binders.map fun y => (y.1, if y.2.id = x.id then x' else y.2)

@[simp] theorem map_fst_rebinders (x x' : Param) :
    (rebinders x x' binders).map (·.1) = binders.map (·.1) := by
  simp [rebinders, Function.comp_def]

theorem rebinders_apart {x x' : Param} (h : ∀ y ∈ binders, y.2.id ≠ x.id) :
    rebinders x x' binders = binders := by
  refine (List.map_congr_left fun y hy => ?_).trans (List.map_id binders)
  rw [if_neg (h y hy)]
  rfl

theorem rebinders_append (x x' : Param) (inner : List (Param × Param)) :
    rebinders x x' (inner ++ binders) = rebinders x x' inner ++ rebinders x x' binders :=
  List.map_append

/-- A number of the exchanged binders is the new one or another old one. -/
theorem mem_rebinders {x x' : Param} {y : Param × Param} (h : y ∈ rebinders x x' binders) :
    y.2 = x' ∨ y.2.id ≠ x.id ∧ ∃ z ∈ binders, z.2 = y.2 := by
  obtain ⟨z, hz, rfl⟩ := List.mem_map.mp h
  dsimp only
  split
  · exact .inl rfl
  · exact .inr ⟨‹_›, z, hz, rfl⟩

/-- Another parameter keeps its binder when binders are exchanged for a fresh one. -/
theorem Corresponds.rebinders_of_ne {x x' p p' : Param} (h : Corresponds binders p p')
    (hx : p'.id ≠ x.id) (fresh : p'.id ≠ x'.id) : Corresponds (rebinders x x' binders) p p' := by
  induction binders with
  | nil => exact h
  | cons y binders ih =>
    simp only [rebinders, List.map_cons, Corresponds] at h ⊢
    split at h
    · rw [if_pos ‹_›, if_neg (h ▸ hx)]
      exact h
    · rw [if_neg ‹_›]
      refine ⟨?_, ih h.2⟩
      split
      · exact fresh
      · exact h.1

/-- A parameter with an exchanged binder becomes the new binder. -/
theorem Corresponds.rebinders_of_eq {x x' p p' : Param} (h : Corresponds binders p p')
    (hx : p'.id = x.id) (bound : ∃ y ∈ binders, y.2.id = x.id)
    (fresh : ∀ y ∈ binders, y.2.id ≠ x'.id) : Corresponds (rebinders x x' binders) p x' := by
  induction binders with
  | nil => simp at bound
  | cons y binders ih =>
    obtain ⟨first, rest⟩ := List.forall_mem_cons.mp fresh
    simp only [rebinders, List.map_cons, Corresponds] at h ⊢
    split at h
    · rw [if_pos ‹_›, if_pos (h.symm.trans hx)]
    · have other : y.2.id ≠ x.id := fun same => h.1 (hx.trans same.symm)
      have deeper : ∃ y ∈ binders, y.2.id = x.id := by simpa [other] using bound
      rw [if_neg ‹_›, if_neg other]
      exact ⟨Ne.symm first, ih h.2 deeper rest⟩

theorem zip_self {α : Type} (xs : List α) : xs.zip xs = xs.map fun x => (x, x) := by
  induction xs with
  | nil => rfl
  | cons x xs ih => rw [List.zip_cons_cons, ih, List.map_cons]

/-- Every parameter as the one that corresponds to itself. -/
def paired (bound : List Param) : List (Param × Param) := bound.map fun q => (q, q)

@[simp] theorem map_fst_paired (bound : List Param) : (paired bound).map (·.1) = bound := by
  simp [paired, Function.comp_def]

theorem paired_append (inner bound : List Param) :
    paired (inner ++ bound) = inner.zip inner ++ paired bound := by
  rw [zip_self, paired, List.map_append]
  rfl

theorem corresponds_self (bound : List Param) (p : Param) : Corresponds (paired bound) p p := by
  induction bound with
  | nil => rfl
  | cons q bound ih =>
    simp only [paired, List.map_cons, Corresponds] at ih ⊢
    split
    · assumption
    · exact ⟨‹_›, ih⟩

/-- No binder is bound again in its own scope. -/
def Unshadowed (bound : List Param) (e : Expr) : Prop :=
  ∀ around s, Within bound e around s → ∀ q, s.bound? = some q → ∀ b ∈ around, b.id ≠ q.id

theorem Unshadowed.part {bound : List Param} (h : e.Unshadowed bound) {x : List Param × Expr}
    (hx : x ∈ e.parts bound) : x.2.Unshadowed x.1 := fun around s hs => h around s (hs.of_part hx)

theorem binders_eq (e : Expr) :
    e.binders = (e.bound?.map (·.id)).toList ++ e.children.flatMap Expr.binders := by
  unfold Expr.binders
  rw [subterms_eq, List.filterMap_cons, List.filterMap_flatMap]
  cases e.bound? <;> rfl

theorem unshadowed_of_nodup {bound : List Param} (distinct : e.binders.Nodup)
    (apart : ∀ b ∈ bound, b.id ∉ e.binders) : e.Unshadowed bound := by
  induction e using partwise generalizing bound with
  | h e ih =>
    rw [binders_eq, List.nodup_append, List.nodup_flatMap] at distinct
    obtain ⟨-, ⟨children, -⟩, own⟩ := distinct
    intro around s hs q hq b hb same
    rcases within_iff.mp hs with ⟨rfl, rfl⟩ | ⟨x, hx, hs⟩
    · exact apart b hb (same ▸ mem_binders_iff.mpr (.inl ⟨q, hq, rfl⟩))
    · have child := mem_children_of_parts hx
      refine ih x.2 child (children x.2 child) (fun c hc inside => ?_) around s hs q hq b hb same
      obtain ⟨inner, split, hmem⟩ := mem_parts hx
      rw [split] at hc
      rcases List.mem_append.mp hc with hc | hc
      · refine own c.id ?_ c.id (List.mem_flatMap.mpr ⟨x.2, child, inside⟩) rfl
        rw [bound_of_mem_parts hmem hc]
        exact List.mem_singleton.mpr rfl
      · exact apart c hc (mem_binders_iff.mpr (.inr ⟨x.2, child, inside⟩))

/-- An expression without hits is rebuilt as itself. -/
theorem rebuilds_self {bound : List Param} (h : e.Unshadowed bound)
    (none : ∀ around s, Within bound e around s → ¬hit around s) :
    Rebuilds hit copy (paired bound) e e := by
  induction e using partwise generalizing bound with
  | h e ih =>
    refine .keep (by simpa using none bound e .self) rfl ?_ ?_ ?_
    · rintro p p' rfl hp
      cases hp
      exact corresponds_self bound p
    · intro q hq y hy
      obtain ⟨b, hb, rfl⟩ := List.mem_map.mp hy
      exact h bound e .self q hq b hb
    · intro y hy
      rw [zip_self, List.mem_map] at hy
      obtain ⟨x, hx, rfl⟩ := hy
      have moved := mem_parts_around hx bound
      rw [← paired_append]
      exact ih x.2 (mem_children_of_parts hx) (h.part moved) fun around s hs =>
        none around s (hs.of_part moved)

theorem Rebuilds.kept (h : Rebuilds hit copy binders e d) (hn : ¬hit (binders.map (·.1)) e) :
    d.frame = e.frame ∧ (∀ p p', e = .param p → d = .param p' → Corresponds binders p p') ∧
      (∀ q, d.bound? = some q → ∀ y ∈ binders, y.2.id ≠ q.id) ∧
      ∀ y ∈ (e.parts []).zip (d.parts []),
        Rebuilds hit copy (y.1.1.zip y.2.1 ++ binders) y.1.2 y.2.2 := by
  cases h with
  | put hh => exact absurd hh hn
  | keep _ frame param binder part => exact ⟨frame, param, binder, part⟩

end Expr

end FieldPlan
