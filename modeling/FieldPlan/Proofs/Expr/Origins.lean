import FieldPlan.Proofs.Expr.Positions

/-!
# Where the parameters of a result come from

A traversal leaves parameters of the expression where its rule does not answer, puts in those of the
answers and draws fresh ones for binders that change their type.

* `Runs.le` : numbers are drawn upwards;
* `Expr.Uses`, `Runs.uses` : the parameters that occur and those that are bound;
* `Visits.ids_lt` : the numbers of what is put back together have been drawn;
* `Expr.Free`, `Runs.free` : the free parameters.
-/

namespace FieldPlan

/-! ## Numbers -/

mutual

/-- Numbers are drawn upwards. -/
theorem Runs.le {rule : Rule} {bound : List Param} {e d : Expr} {hit : Bool} {n k : Nat}
    (h : Runs rule bound e n d hit k) : n ≤ k := by
  match h with
  | .before _ _ => exact Nat.le_refl _
  | .rebuilt _ hv hs _ => exact Nat.le_trans hv.le hs.le
  | .after _ hv hs _ => exact Nat.le_trans hv.le hs.le

theorem Visits.le {rule : Rule} {xs : List (List Param × Expr)} {es : List Expr} {hit : Bool}
    {n k : Nat} (h : Visits rule xs n es hit k) : n ≤ k := by
  match h with
  | .nil _ _ => exact Nat.le_refl _
  | .cons hr hv => exact Nat.le_trans hr.le hv.le

theorem Settles.le {e d : Expr} {n k : Nat} (h : Settles e n d k) : n ≤ k := by
  match h with
  | .same _ _ => exact Nat.le_refl _
  | .select _ _ hr => exact Nat.le_of_succ_le hr.le
  | .letIn _ hr => exact Nat.le_of_succ_le hr.le
  | .key _ _ _ hr => exact Nat.le_of_succ_le hr.le

end

namespace Expr

/-! ## Parameters that occur and that are bound -/

/-- Every parameter that occurs is one of `A`, and every parameter that is bound one of `C`. -/
def Uses (A C : Param → Prop) (e : Expr) : Prop :=
  ∀ x ∈ e.subterms, (∀ q, x = .param q → A q) ∧ ∀ q, x.bound? = some q → C q

variable {A C : Param → Prop}

theorem uses_iff {e : Expr} : e.Uses A C ↔
    ((∀ q, e = .param q → A q) ∧ ∀ q, e.bound? = some q → C q) ∧ ∀ c ∈ e.children, c.Uses A C := by
  constructor
  · intro h
    exact ⟨h e (self_mem_subterms e), fun c hc x hx => h x (mem_subterms_of_child hc hx)⟩
  · rintro ⟨he, hc⟩ x hx
    rcases mem_subterms.mp hx with rfl | ⟨c, hcm, hx⟩
    · exact he
    · exact hc c hcm x hx

theorem uses_param {q : Param} (h : A q) : (Expr.param q).Uses A C := by
  intro x hx
  cases List.mem_singleton.mp hx
  exact ⟨fun p hp => Expr.param.inj hp ▸ h, nofun⟩

theorem uses_ids {P : Nat → Prop} {e : Expr} :
    e.Uses (fun q => P q.id) (fun q => P q.id) ↔ ∀ i ∈ e.ids, P i := by
  constructor
  · intro h i hi
    obtain ⟨x, hx, p, hp, rfl⟩ := mem_ids.mp hi
    cases x with
    | param q =>
      cases hp
      exact (h _ hx).1 p rfl
    | _ => exact (h _ hx).2 p hp
  · intro h x hx
    refine ⟨fun q hq => h _ (mem_ids.mpr ⟨x, hx, q, by rw [hq]; rfl, rfl⟩), fun q hq =>
      h _ (mem_ids.mpr ⟨x, hx, q, own_of_bound hq, rfl⟩)⟩

end Expr

open Expr

/-- What a rule leaves of an expression and what it answers there uses these parameters. -/
structure Rule.Feeds (rule : Rule) (A C : Param → Prop) (e : Expr) : Prop where
  kept : ∀ q bound, .param q ∈ e.subterms → rule.pre (.param q) bound = none → A q
  binder : ∀ x ∈ e.subterms, ∀ q, x.bound? = some q → C q
  answer : ∀ r, rule.Answers e r → r.Uses A C

section Uses

variable {A C : Param → Prop}

theorem Rule.Feeds.child {rule : Rule} {e c : Expr} (h : rule.Feeds A C e) (hc : c ∈ e.children) :
    rule.Feeds A C c :=
  ⟨fun q bound hq => h.kept q bound (mem_subterms_of_child hc hq),
    fun x hx => h.binder x (mem_subterms_of_child hc hx), fun r hr => h.answer r (hr.of_child hc)⟩

theorem Rule.feeds_rename {p q : Param} {e : Expr} (h : e.Uses A C) (hq : A q) :
    (Rule.rename p q).Feeds A C e where
  kept x _ hx _ := (h _ hx).1 x rfl
  binder x hx := (h x hx).2
  answer _ hr := hr.of_rename.1 ▸ uses_param hq

/-- What is put back together from parts of these parameters uses them. -/
theorem Rule.Feeds.withParts {rule : Rule} {bound : List Param} {e : Expr} {es : List Expr}
    (he : rule.Feeds A C e) (hpre : rule.pre e bound = none) (hl : es.length = e.children.length)
    (hes : ∀ c ∈ es, c.Uses A C) : (e.withParts es).Uses A C := by
  refine uses_iff.mpr ⟨⟨fun q hq => ?_, fun q hq => ?_⟩, fun c hc => ?_⟩
  · cases param_of_withParts hq
    exact he.kept q bound (self_mem_subterms _) hpre
  · exact he.binder e (self_mem_subterms e) q (bound_withParts e _ ▸ hq)
  · rw [children_withParts hl] at hc
    exact hes c hc

mutual

/-- The parameters of a result stem from the expression, from answers or from fresh draws. -/
theorem Runs.uses {rule : Rule} {bound : List Param} {e d : Expr} {hit : Bool} {n k : Nat}
    (h : Runs rule bound e n d hit k) (he : rule.Feeds A C e)
    (fresh : ∀ q : Param, n ≤ q.id → q.id < k → A q ∧ C q) : d.Uses A C := by
  match h with
  | .before _ hpre => exact he.answer _ ⟨e, self_mem_subterms e, bound, .inl hpre⟩
  | .after _ _ _ hpost => exact he.answer _ ⟨e, self_mem_subterms e, bound, .inr hpost⟩
  | .rebuilt hpre hv hs _ =>
    have parts := hv.uses (fun x hx => he.child (mem_children_of_parts hx)) fun q hn hk =>
      fresh q hn (Nat.lt_of_lt_of_le hk hs.le)
    exact hs.uses (he.withParts hpre hv.length_children parts) fun q hn hk =>
      fresh q (Nat.le_trans hv.le hn) hk

theorem Visits.uses {rule : Rule} {xs : List (List Param × Expr)} {es : List Expr} {hit : Bool}
    {n k : Nat} (h : Visits rule xs n es hit k) (hx : ∀ x ∈ xs, rule.Feeds A C x.2)
    (fresh : ∀ q : Param, n ≤ q.id → q.id < k → A q ∧ C q) : ∀ c ∈ es, c.Uses A C := by
  match h with
  | .nil _ _ => exact fun c hc => nomatch hc
  | .cons hr hv =>
    obtain ⟨first, rest⟩ := List.forall_mem_cons.mp hx
    refine List.forall_mem_cons.mpr ⟨?_, ?_⟩
    · exact hr.uses first fun q hn hk => fresh q hn (Nat.lt_of_lt_of_le hk hv.le)
    · exact hv.uses rest fun q hn hk => fresh q (Nat.le_trans hr.le hn) hk

theorem Settles.uses {e d : Expr} {n k : Nat} (h : Settles e n d k) (he : e.Uses A C)
    (fresh : ∀ q : Param, n ≤ q.id → q.id < k → A q ∧ C q) : d.Uses A C := by
  match h with
  | .same _ _ => exact he
  | @Settles.select source body _ p t _ n _ _ _ hr =>
    obtain ⟨-, parts⟩ := uses_iff.mp he
    have new := fresh ⟨n, p.name, t⟩ (Nat.le_refl _) hr.le
    have inside := hr.uses (Rule.feeds_rename (parts body (by simp [children])) new.1)
      fun q hn hk => fresh q (Nat.le_of_succ_le hn) hk
    refine uses_iff.mpr ⟨⟨nofun, ?_⟩, ?_⟩
    · rintro q ⟨⟩
      exact new.2
    · simp only [children, List.forall_mem_cons] at parts ⊢
      exact ⟨parts.1, inside, nofun⟩
  | @Settles.letIn value body _ p _ n _ _ hr =>
    obtain ⟨-, parts⟩ := uses_iff.mp he
    have new := fresh ⟨n, p.name, value.ty⟩ (Nat.le_refl _) hr.le
    have inside := hr.uses (Rule.feeds_rename (parts body (by simp [children])) new.1)
      fun q hn hk => fresh q (Nat.le_of_succ_le hn) hk
    refine uses_iff.mpr ⟨⟨nofun, ?_⟩, ?_⟩
    · rintro q ⟨⟩
      exact new.2
    · simp only [children, List.forall_mem_cons] at parts ⊢
      exact ⟨parts.1, inside, nofun⟩
  | @Settles.key _ list body _ p t _ n _ _ _ _ hr =>
    obtain ⟨-, parts⟩ := uses_iff.mp he
    simp only [children, List.forall_mem_cons] at parts
    have new := fresh ⟨n, p.name, t⟩ (Nat.le_refl _) hr.le
    have inside := hr.uses
      (Rule.feeds_rename ((uses_iff.mp parts.2.1).2 body (by simp [children])) new.1)
      fun q hn hk => fresh q (Nat.le_of_succ_le hn) hk
    refine uses_iff.mpr ⟨⟨nofun, nofun⟩, ?_⟩
    simp only [children, List.forall_mem_cons]
    refine ⟨parts.1, uses_iff.mpr ⟨⟨nofun, ?_⟩, ?_⟩, nofun⟩
    · rintro q ⟨⟩
      exact new.2
    · simpa [children] using inside

end

theorem Rule.feeds_lt {rule : Rule} {e : Expr} {n k : Nat} (hk : n ≤ k) (he : ∀ i ∈ e.ids, i < n)
    (answers : ∀ r, rule.Answers e r → ∀ i ∈ r.ids, i < n) :
    rule.Feeds (fun q => q.id < k) (fun q => q.id < k) e := by
  have below : ∀ r : Expr, (∀ i ∈ r.ids, i < n) → ∀ i ∈ r.ids, i < k := fun r hr i hi =>
    Nat.lt_of_lt_of_le (hr i hi) hk
  have uses := uses_ids.mpr (below e he)
  exact ⟨fun q _ hq _ => (uses _ hq).1 q rfl, fun x hx => (uses x hx).2,
    fun r hr => uses_ids.mpr (below r (answers r hr))⟩

/-- The numbers of what is put back together have been drawn. -/
theorem Visits.ids_lt {rule : Rule} {bound : List Param} {e : Expr} {es : List Expr} {hit : Bool}
    {n k : Nat} (h : Visits rule (e.parts bound) n es hit k) (hpre : rule.pre e bound = none)
    (he : ∀ i ∈ e.ids, i < n) (answers : ∀ r, rule.Answers e r → ∀ i ∈ r.ids, i < n) :
    ∀ i ∈ (e.withParts es).ids, i < k := by
  have feeds := Rule.feeds_lt h.le he answers
  have parts := h.uses (fun x hx => feeds.child (mem_children_of_parts hx)) fun _ _ hk => ⟨hk, hk⟩
  exact uses_ids.mp (feeds.withParts hpre h.length_children parts)

end Uses

/-! ## Free parameters -/

namespace Expr

abbrev Free (p : Param) (e : Expr) : Prop := Loose (fun _ => False) p e

variable {p : Param} {e : Expr}

theorem free_iff : e.Free p ↔
    e = .param p ∨ ∃ x ∈ e.parts [], (∀ q ∈ x.1, q.id ≠ p.id) ∧ x.2.Free p := by
  constructor
  · intro h
    cases h with
    | here => exact .inl rfl
    | part _ hx hq h => exact .inr ⟨_, hx, hq, h⟩
  · rintro (rfl | ⟨x, hx, hq, h⟩)
    · exact .here id
    · exact .part id hx hq h

theorem free_withParts {es : List Expr} (hl : es.length = e.children.length)
    (h : (e.withParts es).Free p) : e = .param p ∨ ∃ y ∈ (e.parts []).zip es,
      (∀ q ∈ y.1.1, q.id ≠ p.id) ∧ y.2.Free p := by
  rcases free_iff.mp h with h | ⟨x, hx, hq, h⟩
  · exact .inl (param_of_withParts h)
  · obtain ⟨y, hy, rfl⟩ := mem_parts_withParts hl hx
    exact .inr ⟨y, hy, by simpa using hq, h⟩

end Expr

section Free

variable {p : Param}

/-- What a renaming leaves free, apart from the new parameter, is another parameter that was free. -/
theorem Rule.free_renamed {q q' : Param} {e : Expr} (hq : q'.id ≠ p.id)
    (h : (e.Free p ∧ ∃ around, (Rule.rename q q').pre (.param p) around = none) ∨
      ∃ r, (Rule.rename q q').Answers e r ∧ r.Free p) : q.id ≠ p.id ∧ e.Free p := by
  rcases h with ⟨hp, around, left⟩ | ⟨r, hr, hp⟩
  · refine ⟨fun same => ?_, hp⟩
    rw [pre_rename_of_eq same.symm] at left
    cases left
  · obtain ⟨rfl, -⟩ := hr.of_rename
    exact absurd (congrArg Param.id (loose_param hp)).symm hq

mutual

/-- A parameter that is free in a result is one that the rule leaves, or is free in an answer. -/
theorem Runs.free {rule : Rule} {bound : List Param} {e d : Expr} {hit : Bool} {n k : Nat}
    (h : Runs rule bound e n d hit k) (hp : d.Free p) :
    (e.Free p ∧ ∃ around, rule.pre (.param p) around = none) ∨ ∃ r, rule.Answers e r ∧ r.Free p := by
  match h with
  | .before _ hpre => exact .inr ⟨_, ⟨e, self_mem_subterms e, bound, .inl hpre⟩, hp⟩
  | .after _ _ _ hpost => exact .inr ⟨_, ⟨e, self_mem_subterms e, bound, .inr hpost⟩, hp⟩
  | .rebuilt hpre hv hs _ =>
    rcases free_withParts hv.length_children (hs.free hp) with rfl | ⟨y, hy, hq, hp⟩
    · exact .inl ⟨.here id, bound, hpre⟩
    · have hc := mem_children_of_parts (List.of_mem_zip hy).1
      rcases hv.free _ (mem_zip_parts hy bound) hp with ⟨hp, left⟩ | ⟨r, hr, hp⟩
      · exact .inl ⟨.part id (List.of_mem_zip hy).1 hq hp, left⟩
      · exact .inr ⟨r, hr.of_child hc, hp⟩

theorem Visits.free {rule : Rule} {xs : List (List Param × Expr)} {es : List Expr} {hit : Bool}
    {n k : Nat} (h : Visits rule xs n es hit k) : ∀ y ∈ xs.zip es, y.2.Free p →
      (y.1.2.Free p ∧ ∃ around, rule.pre (.param p) around = none) ∨
        ∃ r, rule.Answers y.1.2 r ∧ r.Free p := by
  match h with
  | .nil _ _ => exact nofun
  | .cons hr hv =>
    exact List.forall_mem_cons.mpr ⟨hr.free, hv.free⟩

theorem Settles.free {e d : Expr} {n k : Nat} (h : Settles e n d k) (hp : d.Free p) : e.Free p := by
  match h with
  | .same _ _ => exact hp
  | .select _ _ hr =>
    rcases free_iff.mp hp with hp | ⟨x, hx, hq, hp⟩
    · cases hp
    · rcases List.mem_cons.mp hx with rfl | hx
      · exact .part id List.mem_cons_self hq hp
      · cases List.mem_singleton.mp hx
        obtain ⟨hq, hp⟩ := Rule.free_renamed (hq _ List.mem_cons_self) (hr.free hp)
        exact .part id (List.mem_cons_of_mem _ List.mem_cons_self)
          (List.forall_mem_singleton.mpr hq) hp
  | .letIn _ hr =>
    rcases free_iff.mp hp with hp | ⟨x, hx, hq, hp⟩
    · cases hp
    · rcases List.mem_cons.mp hx with rfl | hx
      · exact .part id List.mem_cons_self hq hp
      · cases List.mem_singleton.mp hx
        obtain ⟨hq, hp⟩ := Rule.free_renamed (hq _ List.mem_cons_self) (hr.free hp)
        exact .part id (List.mem_cons_of_mem _ List.mem_cons_self)
          (List.forall_mem_singleton.mpr hq) hp
  | .key _ _ _ hr =>
    obtain ⟨c, hc, inside⟩ := hp.of_child rfl
    rcases List.mem_cons.mp hc with rfl | hc
    · exact .part id List.mem_cons_self nofun inside
    · cases List.mem_singleton.mp hc
      rcases free_iff.mp inside with hp | ⟨x, hx, hq, hp⟩
      · cases hp
      · cases List.mem_singleton.mp hx
        obtain ⟨hq, hp⟩ := Rule.free_renamed (hq _ List.mem_cons_self) (hr.free hp)
        refine .part id (List.mem_cons_of_mem _ List.mem_cons_self) nofun ?_
        exact .part id List.mem_cons_self (List.forall_mem_singleton.mpr hq) hp

end

end Free

end FieldPlan
