import FieldPlan.Proofs.Expr.Retyping
import FieldPlan.Proofs.Expr.Rewriting

/-!
# Replacement by type

* `Expr.Minimal` : the positions that replacement by type replaces; `Expr.minimal_iff` says the same
  with minimal positions in place of the matching ones;
* `Expr.Copy` : what stands there, the replacement up to its own types and binders;
* `Expr.replaceByType_rebuilds` : replacement by type, and of the parameters of a type, puts copies at
  these positions and keeps the others.
-/

namespace FieldPlan

namespace Expr

variable {t : Ty} {r s e : Expr} {around : List Param}

/-! ## Minimal positions -/

/-- A position below another one is of the type or an occurrence of the replacement. -/
def Occupied (t : Ty) (r : Expr) (around : List Param) (s : Expr) : Prop :=
  ∃ x ∈ s.parts around, ∃ inner u, Within x.1 x.2 inner u ∧ (u.Matches t inner ∨ (u == r) = true)

/-- A position of the type below which nothing is of the type or an occurrence of the replacement. -/
def Minimal (t : Ty) (r : Expr) (around : List Param) (s : Expr) : Prop :=
  s.Matches t around ∧ ¬Occupied t r around s

/-- Where a position of an expression is of the type, one is minimal or an occurrence of the replacement.
-/
theorem exists_minimal (r : Expr) {inner : List Param} {u : Expr} (hu : Within around e inner u)
    (h : u.Matches t inner) :
    ∃ inner s, Within around e inner s ∧ (Minimal t r inner s ∨ (s == r) = true) := by
  induction e using partwise generalizing around inner u with
  | h e ih =>
    have below : ∀ x ∈ e.parts around, ∀ inner u, Within x.1 x.2 inner u → u.Matches t inner →
        ∃ inner s, Within around e inner s ∧ (Minimal t r inner s ∨ (s == r) = true) := by
      intro x hx inner u hu matched
      obtain ⟨inner, s, hs, found⟩ := ih x.2 (mem_children_of_parts hx) hu matched
      exact ⟨inner, s, hs.of_part hx, found⟩
    rcases within_iff.mp hu with ⟨rfl, rfl⟩ | ⟨x, hx, hu⟩
    · by_cases occupied : Occupied t r inner u
      · obtain ⟨x, hx, inner, v, hv, matched | same⟩ := occupied
        · exact below x hx inner v hv matched
        · exact ⟨inner, v, hv.of_part hx, .inr same⟩
      · exact ⟨inner, u, .self, .inl ⟨h, occupied⟩⟩
    · exact below x hx inner u hu h

/-- Minimal is a position of the type below which nothing is minimal or an occurrence of the replacement.
-/
theorem minimal_iff : Minimal t r around s ↔ s.Matches t around ∧ ¬∃ x ∈ s.parts around, ∃ inner u,
    Within x.1 x.2 inner u ∧ (Minimal t r inner u ∨ (u == r) = true) := by
  refine and_congr_right fun _ => not_congr ⟨?_, ?_⟩
  · rintro ⟨x, hx, inner, u, hu, matched | same⟩
    · exact ⟨x, hx, exists_minimal r hu matched⟩
    · exact ⟨x, hx, inner, u, hu, .inr same⟩
  · rintro ⟨x, hx, inner, u, hu, minimal | same⟩
    · exact ⟨x, hx, inner, u, hu, .inl minimal.1⟩
    · exact ⟨x, hx, inner, u, hu, .inr same⟩

/-- A parameter of the type that is not bound and not the replacement. -/
def OtherParam (t : Ty) (r : Expr) (around : List Param) (s : Expr) : Prop :=
  s.MatchesParam t around ∧ (s == r) = false

/-! ## Copies -/

/-- What is equal to the replacement, up to types and parameters where those do not agree. -/
def Copy (r d : Expr) : Prop :=
  ∃ s, (s == r) = true ∧ d.outline = s.outline ∧ (s.Coherent → s.lambda? = none → d = s)

theorem copy_of_eqv (h : (s == r) = true) : Copy r s := ⟨s, h, rfl, fun _ _ => rfl⟩

theorem lambda?_outline {d : Expr} (h : d.outline = s.outline) (hd : d.lambda? ≠ none) :
    s.lambda? ≠ none := by
  cases d <;> cases s <;> simp_all [outline, lambda?]

theorem copies_copy (r : Expr) : Copies (Copy r) where
  renamed := by
    rintro c c' x x' around flag n k ⟨s, same, outline, equal⟩ absent - - run
    refine ⟨s, same, (run.outline_eq rfl).trans outline, fun coherent plain => ?_⟩
    obtain rfl := equal coherent plain
    refine run.eq_self coherent fun inner u hu d hd => ?_
    exact absurd (Rule.Answers.of_rename ⟨u, hu.mem_subterms, inner, hd⟩).2 absent
  key := by
    rintro c c' q q' flag n k ⟨s, same, outline, equal⟩ - - run
    refine ⟨s, same, ?_, fun _ plain => absurd plain (lambda?_outline outline nofun)⟩
    rw [← outline, Expr.outline, Expr.outline, run.outline_eq rfl]

end Expr

open Expr

/-! ## The rules -/

section Rules

variable {t : Ty} {r s : Expr} {around : List Param}

theorem Rule.byType_answersAt :
    (Rule.byType t r).AnswersAt around s ↔ s.Matches t around ∨ (s == r) = true := by
  constructor
  · rintro ⟨d, hd | hd⟩
    · cases hd
    · exact (byType_post.mp hd).elim (fun h => .inr h.1) fun h => .inl h.2.1
  · intro h
    cases same : s == r with
    | true => exact ⟨s, .inr (byType_post.mpr (.inl ⟨same, rfl⟩))⟩
    | false =>
      have matched := h.resolve_right (by simp [same])
      exact ⟨r, .inr (byType_post.mpr (.inr ⟨same, matched, rfl⟩))⟩

theorem Rule.rewrites_byType (t : Ty) (r : Expr) :
    (Rule.byType t r).Rewrites (Minimal t r) (Copy r) where
  pre := nofun
  kept bound e _ h := by
    rintro ⟨matched, free⟩
    rcases h with ⟨x, hx, inner, u, hu, answers⟩ | h
    · exact free ⟨x, hx, inner, u, hu, byType_answersAt.mp answers⟩
    · obtain ⟨d, hd | hd⟩ := (byType_answersAt (t := t) (r := r)).mpr (.inl matched)
      · cases hd
      · rw [h] at hd
        cases hd
  post bound e d _ h hd := by
    have free : ¬Occupied t r bound e := fun ⟨x, hx, inner, u, hu, answers⟩ =>
      h ⟨x, hx, inner, u, hu, byType_answersAt.mpr answers⟩
    rcases byType_post.mp hd with ⟨same, rfl⟩ | ⟨-, matched, rfl⟩
    · by_cases matched : d.Matches t bound
      · exact .inl ⟨⟨matched, free⟩, copy_of_eqv same⟩
      · exact .inr ⟨fun minimal => matched minimal.1, rfl⟩
    · exact .inl ⟨⟨matched, free⟩, copy_of_eqv (eqv_refl d)⟩

theorem Rule.rewrites_paramsByType (t : Ty) (r : Expr) :
    (Rule.paramsByType t r).Rewrites (OtherParam t r) (Copy r) where
  pre bound e d hd := by
    obtain ⟨other, matched, rfl⟩ := paramsByType_pre.mp hd
    exact ⟨⟨matched, other⟩, copy_of_eqv (eqv_refl d)⟩
  kept bound e hpre _ := by
    rintro ⟨matched, other⟩
    rw [paramsByType_pre.mpr ⟨other, matched, rfl⟩] at hpre
    cases hpre
  post := nofun

end Rules

/-! ## Free parameters -/

namespace Expr

variable {t : Ty} {r e : Expr} {n : Nat}

/-- Equal expressions bind parameters of the same numbers around equal parts. -/
theorem scopes_of_eqv {a b : Expr} (h : eqv a b = true) :
    List.Forall₂ (fun x y : List Param × Expr =>
      x.1.map (·.id) = y.1.map (·.id) ∧ eqv x.2 y.2 = true) (a.parts []) (b.parts []) := by
  have around : ∀ {as bs : List Expr}, List.Forall₂ (fun a b => eqv a b = true) as bs →
      List.Forall₂ (fun x y : List Param × Expr =>
        x.1.map (·.id) = y.1.map (·.id) ∧ eqv x.2 y.2 = true)
        (as.map fun c => ([], c)) (bs.map fun c => ([], c)) := by
    intro as bs hab
    induction hab with
    | nil => exact .nil
    | cons hab _ ih => exact .cons ⟨rfl, hab⟩ ih
  have children := (parts_of_eqv h).2
  cases a <;> cases b <;> simp only [eqv, Bool.and_eq_true, beq_iff_eq, Bool.false_eq_true] at h
  case lambda => exact .cons ⟨by simp [h.1], h.2⟩ .nil
  case select => exact .cons ⟨rfl, h.1.1⟩ (.cons ⟨by simp [h.1.2], h.2⟩ .nil)
  case letIn => exact .cons ⟨rfl, h.1.2⟩ (.cons ⟨by simp [h.1.1], h.2⟩ .nil)
  all_goals exact around children

/-- Equal expressions have free parameters of the same numbers. -/
theorem free_of_eqv {a b : Expr} (h : eqv a b = true) {p : Param} (hp : a.Free p) :
    ∃ q, q.id = p.id ∧ b.Free q := by
  induction hp generalizing b with
  | here =>
    cases b <;> simp [eqv] at h
    exact ⟨_, h.symm, .here id⟩
  | @part a x _ hx hq _ ih =>
    obtain ⟨y, hy, same, equal⟩ := exists_of_forall₂ (scopes_of_eqv h).flip hx
    obtain ⟨q, hid, free⟩ := ih equal
    refine ⟨q, hid, .part id hy (fun b hb => ?_) free⟩
    have hb' : b.id ∈ x.1.map (·.id) := same ▸ List.mem_map_of_mem hb
    obtain ⟨c, hc, hcb⟩ := List.mem_map.mp hb'
    rw [hid, ← hcb]
    exact hq c hc

/-! ## Results -/

theorem byType_answer {d : Expr} (h : (Rule.byType t r).Answers e d) : (d == r) = true := by
  obtain ⟨s, -, around, hd | hd⟩ := h
  · cases hd
  · rcases Rule.byType_post.mp hd with ⟨same, rfl⟩ | ⟨-, -, rfl⟩
    · exact same
    · exact eqv_refl d

theorem paramsByType_answer {d : Expr} (h : (Rule.paramsByType t r).Answers e d) : d = r := by
  obtain ⟨s, -, around, hd | hd⟩ := h
  · exact (Rule.paramsByType_pre.mp hd).2.2
  · cases hd

/-- Answers that are equal to a replacement which mentions no binder mention none. -/
theorem separate_of_answers {rule : Rule} (distinct : e.binders.Nodup) (drawn : ∀ i ∈ e.ids, i < n)
    (apart : ∀ i ∈ r.ids, i ∉ e.binders) (drawn' : ∀ i ∈ r.ids, i < n)
    (answers : ∀ d, rule.Answers e d → (d == r) = true) : rule.Separate n [] e :=
  ⟨unshadowed_of_nodup distinct (List.forall_mem_nil _), drawn, List.forall_mem_nil _, fun d hd i hi =>
    have hi := (ids_of_eqv (answers d hd)).mp hi
    ⟨drawn' i hi, apart i hi, List.forall_mem_nil _⟩⟩

theorem free_of_answers {rule : Rule} {d : Expr} {flag : Bool} {k : Nat}
    (h : Runs rule [] e n d flag k) (answers : ∀ d, rule.Answers e d → (d == r) = true) {p : Param}
    (hp : d.Free p) : ∃ q, q.id = p.id ∧ (e.Free q ∨ r.Free q) := by
  rcases h.free hp with ⟨hp, -⟩ | ⟨c, hc, hp⟩
  · exact ⟨p, rfl, .inl hp⟩
  · obtain ⟨q, same, hq⟩ := free_of_eqv (answers c hc) hp
    exact ⟨q, same, .inr hq⟩

/-- Replacement by type puts copies exactly at the minimal positions of the type, and replacement of the
parameters of a type at those; what stands elsewhere keeps its constructor, parameters their binders. No
other parameter is free afterwards. -/
theorem replaceByType_rebuilds (t : Ty) (distinct : e.binders.Nodup)
    (drawn : ∀ i ∈ e.ids, i < n) (apart : ∀ i ∈ r.ids, i ∉ e.binders)
    (drawn' : ∀ i ∈ r.ids, i < n) :
    (Rebuilds (Minimal t r) (Copy r) [] e (e.replaceByType t r n).1 ∧
      ∀ p, (e.replaceByType t r n).1.Free p → ∃ q, q.id = p.id ∧ (e.Free q ∨ r.Free q)) ∧
    (Rebuilds (OtherParam t r) (Copy r) [] e (e.replaceParamsByType t r n).1 ∧
      ∀ p, (e.replaceParamsByType t r n).1.Free p → ∃ q, q.id = p.id ∧ (e.Free q ∨ r.Free q)) := by
  constructor
  · obtain ⟨flag, k, run⟩ := replaceByType_runs t r e n
    have answers := fun d (hd : (Rule.byType t r).Answers e d) => byType_answer hd
    have separate := separate_of_answers distinct drawn apart drawn' answers
    exact ⟨run.rebuilds (Rule.rewrites_byType t r) (copies_copy r) separate,
      fun p hp => free_of_answers run answers hp⟩
  · obtain ⟨flag, k, run⟩ := replaceParamsByType_runs t r e n
    have answers : ∀ d, (Rule.paramsByType t r).Answers e d → (d == r) = true := fun d hd => by
      rw [paramsByType_answer hd]
      exact eqv_refl r
    have separate := separate_of_answers distinct drawn apart drawn' answers
    exact ⟨run.rebuilds (Rule.rewrites_paramsByType t r) (copies_copy r) separate,
      fun p hp => free_of_answers run answers hp⟩

/-- A value of the type, in a binding whose body is not of the type. -/
theorem replaceByType_rebuilds_value :
    let text : Ty := .scalar .string true
    let a : Param := ⟨0, "a", text⟩
    let w : Param := ⟨1, "w", text⟩
    let x : Param := ⟨2, "x", text⟩
    let e : Expr := .letIn x (.param a) (.equal (.param x) (.param a))
    e.binders.Nodup ∧ (∀ i ∈ e.ids, i < 3) ∧ (∀ i ∈ (Expr.param w).ids, i ∉ e.binders) ∧
      (∀ i ∈ (Expr.param w).ids, i < 3) ∧
      Rebuilds (Minimal text (.param w)) (Copy (.param w)) [] e (e.replaceByType text (.param w) 3).1 := by
  intro text a w x e
  have distinct : e.binders.Nodup := by decide
  have drawn : ∀ i ∈ e.ids, i < 3 := by decide
  have apart : ∀ i ∈ (Expr.param w).ids, i ∉ e.binders := by decide
  have drawn' : ∀ i ∈ (Expr.param w).ids, i < 3 := by decide
  exact ⟨distinct, drawn, apart, drawn', (replaceByType_rebuilds text distinct drawn apart drawn').1.1⟩

/-- A binding that is itself of the type is replaced with the occurrences of its parameter. -/
theorem replaceByType_drops_binding :
    let person : Ty := .entity "Person" false
    let text : Ty := .scalar .string true
    let a : Param := ⟨0, "a", person⟩
    let w : Param := ⟨1, "wrap", text⟩
    let x : Param := ⟨2, "x", person⟩
    let e : Expr := .letIn x (.param a) (.member (.param x) "name" text)
    e.Consistent ∧ e.binders.Nodup ∧ (∀ i ∈ (Expr.param w).ids, i ∉ e.binders) ∧
      Within [] e [x] (.param x) ∧ (e.replaceByType text (.param w) 3).1 = .param w := by
  intro person text a w x e
  have coherent : e.Coherent := by
    simp [e, a, x, person, Coherent, subterms, Fits, Expr.ty, Ty.member?]
  have body : ([x], .member (.param x) "name" text) ∈ e.parts [] :=
    List.mem_cons_of_mem _ List.mem_cons_self
  have inside : ([x], .param x) ∈ (Expr.member (.param x) "name" text).parts [x] :=
    List.mem_cons_self
  exact ⟨⟨coherent, uniform_let_member x a "name" text⟩, by decide, by decide, .part (.part .self body) inside, rfl⟩

end Expr

end FieldPlan
