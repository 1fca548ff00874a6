import FieldPlan.Proofs.Expr.Traversal

/-!
# Traversals end

A traversal that changes a binder goes over the finished body again, which is not a part of the
expression and may be larger than the body that it was made from. That this ends in every case is
what a derivation of `Runs` says: it is finite, and there is one for every expression, as a renaming
keeps the size.

* `Runs.unique` : a traversal has one result;
* `Expr.rename_eq` : a binder is changed by a replacement of its own, to any depth;
* `Expr.replacements_end` : renaming keeps the outline of an expression, so every replacement ends.
-/

namespace FieldPlan

open Expr

/-! ## One result -/

mutual

/-- A traversal has one result. -/
theorem Runs.unique {rule : Rule} {bound : List Param} {e d d' : Expr} {hit hit' : Bool} {n k k' : Nat}
    (h : Runs rule bound e n d hit k) (h' : Runs rule bound e n d' hit' k') :
    d = d' ∧ hit = hit' ∧ k = k' := by
  match h with
  | .before _ hpre =>
    cases h' with
    | before _ hpre' =>
      cases hpre.symm.trans hpre'
      exact ⟨rfl, rfl, rfl⟩
    | rebuilt hpre' => cases hpre.symm.trans hpre'
    | after hpre' => cases hpre.symm.trans hpre'
  | .rebuilt hpre hv hs missed =>
    cases h' with
    | before _ hpre' => cases hpre.symm.trans hpre'
    | rebuilt _ hv' hs' =>
      obtain ⟨rfl, rfl, rfl⟩ := hv.unique hv'
      obtain ⟨rfl, rfl⟩ := hs.unique hs'
      exact ⟨rfl, rfl, rfl⟩
    | after _ hv' _ hpost =>
      obtain ⟨-, rfl, -⟩ := hv.unique hv'
      exact absurd hpost (by simp [missed.resolve_left Bool.false_ne_true])
  | .after hpre hv hs hpost =>
    cases h' with
    | before _ hpre' => cases hpre.symm.trans hpre'
    | rebuilt _ hv' _ missed =>
      obtain ⟨-, rfl, -⟩ := hv.unique hv'
      exact absurd hpost (by simp [missed.resolve_left Bool.false_ne_true])
    | after _ hv' hs' hpost' =>
      obtain ⟨rfl, -, rfl⟩ := hv.unique hv'
      obtain ⟨rfl, rfl⟩ := hs.unique hs'
      cases hpost.symm.trans hpost'
      exact ⟨rfl, rfl, rfl⟩

theorem Visits.unique {rule : Rule} {xs : List (List Param × Expr)} {es es' : List Expr}
    {hit hit' : Bool} {n k k' : Nat} (h : Visits rule xs n es hit k)
    (h' : Visits rule xs n es' hit' k') : es = es' ∧ hit = hit' ∧ k = k' := by
  match h, h' with
  | .nil _ _, .nil _ _ => exact ⟨rfl, rfl, rfl⟩
  | .cons hr hv, .cons hr' hv' =>
    obtain ⟨rfl, rfl, rfl⟩ := hr.unique hr'
    obtain ⟨rfl, rfl, rfl⟩ := hv.unique hv'
    exact ⟨rfl, rfl, rfl⟩

theorem Settles.unique {e d d' : Expr} {n k k' : Nat} (h : Settles e n d k)
    (h' : Settles e n d' k') : d = d' ∧ k = k' := by
  match h, h' with
  | .same _ _, .same _ _ => exact ⟨rfl, rfl⟩
  | .same _ fits, .select ht hp _ => exact absurd (fits _ ht) hp
  | .same _ fits, .letIn hp _ => exact absurd fits hp
  | .same _ fits, .key hs ht hp _ => exact absurd (fits hs _ rfl _ ht) hp
  | .select ht hp _, .same _ fits => exact absurd (fits _ ht) hp
  | .letIn hp _, .same _ fits => exact absurd fits hp
  | .key hs ht hp _, .same _ fits => exact absurd (fits hs _ rfl _ ht) hp
  | .select ht _ hr, .select ht' _ hr' =>
    cases ht.symm.trans ht'
    obtain ⟨rfl, rfl, rfl⟩ := hr.unique hr'
    exact ⟨rfl, rfl⟩
  | .letIn _ hr, .letIn _ hr' =>
    obtain ⟨rfl, rfl, rfl⟩ := hr.unique hr'
    exact ⟨rfl, rfl⟩
  | .key _ ht _ hr, .key _ ht' _ hr' =>
    cases ht.symm.trans ht'
    obtain ⟨rfl, rfl, rfl⟩ := hr.unique hr'
    exact ⟨rfl, rfl⟩

end

namespace Expr

variable {e : Expr} {n : Nat}

/-- A traversal by a rule ends, with one result: the expression, whether the rule hit, and the next number
to draw. -/
theorem exists_unique_runs (rule : Rule) (e : Expr) (n : Nat) :
    ∃! out : (Expr × Bool) × Nat, Runs rule [] e n out.1.1 out.1.2 out.2 := by
  refine ⟨e.replaceBy rule n, replaceBy_runs rule e n, fun out h => ?_⟩
  obtain ⟨expr, hit, next⟩ := h.unique (replaceBy_runs rule e n)
  exact Prod.ext (Prod.ext expr hit) next

/-! ## Changes of binders -/

/-- A binder is changed by the replacement of its parameter; no number of levels bounds that. -/
theorem rename_eq (p q : Param) (e : Expr) : rename p q e = e.replaceParam p (.param q) := by
  funext n
  obtain ⟨hit, run⟩ := renameTo_runs e.size (Nat.le_refl _) p q n
  obtain ⟨expr, -, next⟩ := run.unique (replaceBy_runs (.rename p q) e n)
  exact Prod.ext expr next

/-- The traversal calls itself for the change of a binder. -/
theorem replaceBy_unfold (rule : Rule) (e : Expr) :
    e.replaceBy rule = replaceWith (fun p q body => body.replaceParam p (.param q)) rule [] e := by
  have same : rename = fun p q body => body.replaceParam p (.param q) := by
    funext p q body
    exact rename_eq p q body
  rw [replaceBy, same]

/-- A renaming changes types and parameters only. -/
theorem outline_replaceParam (e : Expr) (p q : Param) (n : Nat) :
    (e.replaceParam p (.param q) n).1.outline = e.outline := by
  obtain ⟨hit, k, run⟩ := replaceAll_runs (List.cons_ne_nil (.param p, .param q) []) e n
  exact run.outline_eq rfl

/-! ## Replacements -/

/-- A binder whose value is replaced by one of another type, and with it a part of its body: what is
renamed then is larger than the body was. -/
theorem exists_larger_body : ∃ (pairs : List (Expr × Expr)) (p q : Param) (value value' body body' : Expr)
    (n k : Nat) (hit : Bool),
    Runs (.identity pairs) [] (.letIn p value body) n (.letIn q value' body') hit k ∧ q.id ≠ p.id ∧
      body.size < body'.size := by
  let x : Param := ⟨0, "x", .json⟩
  let y : Param := ⟨1, "y", .json⟩
  let z : Param := ⟨2, "z", .json⟩
  let e : Expr := .letIn x (.param y) (.equal (.param x) (.param y))
  obtain ⟨hit, k, run⟩ := replaceAll_runs
    (List.cons_ne_nil (.param y, .equal (.param z) (.param z)) []) e 3
  refine ⟨_, x, ⟨3, "x", .bool⟩, _, _, _, _, 3, k, hit, run, by decide, ?_⟩
  decide

/-- Renaming a parameter keeps the outline of an expression, and so its size. So every traversal ends, with
one result, though it traverses what it made of a body again where a binder gets a new type, by the same
function, and that may be larger than the body was; and the replacements are such traversals. -/
theorem replacements_end (e : Expr) (n : Nat) :
    (∀ p q, (e.replaceParam p (.param q) n).1.outline = e.outline ∧
      (e.replaceParam p (.param q) n).1.size = e.size) ∧
    (∀ rule, (∃! out : (Expr × Bool) × Nat, Runs rule [] e n out.1.1 out.1.2 out.2) ∧
      e.replaceBy rule = replaceWith (fun p q body => body.replaceParam p (.param q)) rule [] e) ∧
    (∀ pairs, pairs = [] ∧ (e.replaceAll pairs n).1 = e ∨
      ∃ hit k, Runs (.identity pairs) [] e n (e.replaceAll pairs n).1 hit k) ∧
    (∀ t r, ∃ hit k, Runs (.byType t r) [] e n (e.replaceByType t r n).1 hit k) ∧
    (∀ t r, ∃ hit k, Runs (.paramsByType t r) [] e n (e.replaceParamsByType t r n).1 hit k) ∧
    ∃ (pairs : List (Expr × Expr)) (p q : Param) (value value' body body' : Expr) (n k : Nat)
      (hit : Bool), Runs (.identity pairs) [] (.letIn p value body) n (.letIn q value' body') hit k ∧
        q.id ≠ p.id ∧ body.size < body'.size := by
  refine ⟨fun p q => ?_, fun rule => ⟨exists_unique_runs rule e n, replaceBy_unfold rule e⟩,
    fun pairs => ?_, fun t r => replaceByType_runs t r e n, fun t r => replaceParamsByType_runs t r e n,
    exists_larger_body⟩
  · have outline := outline_replaceParam e p q n
    exact ⟨outline, size_eq_of_outline outline⟩
  · by_cases none : pairs = []
    · subst none
      exact .inl ⟨rfl, rfl⟩
    · exact .inr (replaceAll_runs none e n)

end Expr

end FieldPlan
