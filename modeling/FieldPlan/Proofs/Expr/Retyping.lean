import FieldPlan.Proofs.Expr.Equality
import FieldPlan.Proofs.Expr.Origins

/-!
# Types after a replacement

* `Runs.coherent` : whatever the expression was, members and binders have the types of what they are
  built from after a traversal;
* `Expr.Uniform`, `Runs.uniform` : occurrences have the types of their binders;
* `Runs.eq_self` : a traversal that answers with what stands at the positions changes nothing;
* `Expr.Consistent`, `Expr.replacements_consistent` : both, and that replacement keeps them.
-/

namespace FieldPlan

open Expr

/-! ## Members and binders -/

theorem Rule.Answers.coherent_of_rename {p q : Param} {e r : Expr}
    (h : (Rule.rename p q).Answers e r) : r.Coherent := h.of_rename.1 ▸ coherent_param q

mutual

/-- After a traversal members and binders have the types of what they are built from. -/
theorem Runs.coherent {rule : Rule} {bound : List Param} {e d : Expr} {hit : Bool} {n k : Nat}
    (h : Runs rule bound e n d hit k) (answers : ∀ r, rule.Answers e r → r.Coherent) :
    d.Coherent := by
  match h with
  | .before _ hpre => exact answers _ ⟨e, self_mem_subterms e, bound, .inl hpre⟩
  | .after _ _ _ hpost => exact answers _ ⟨e, self_mem_subterms e, bound, .inr hpost⟩
  | .rebuilt _ hv hs _ =>
    refine hs.coherent fun c hc => ?_
    rw [children_withParts hv.length_children] at hc
    exact hv.coherent (fun x hx r hr => answers r (hr.of_child (mem_children_of_parts hx))) c hc

theorem Visits.coherent {rule : Rule} {xs : List (List Param × Expr)} {es : List Expr} {hit : Bool}
    {n k : Nat} (h : Visits rule xs n es hit k)
    (answers : ∀ x ∈ xs, ∀ r, rule.Answers x.2 r → r.Coherent) : ∀ c ∈ es, c.Coherent := by
  match h with
  | .nil _ _ => exact nofun
  | .cons hr hv =>
    obtain ⟨first, rest⟩ := List.forall_mem_cons.mp answers
    exact List.forall_mem_cons.mpr ⟨hr.coherent first, hv.coherent rest⟩

theorem Settles.coherent {e d : Expr} {n k : Nat} (h : Settles e n d k)
    (parts : ∀ c ∈ e.children, c.Coherent) : d.Coherent := by
  match h with
  | .same _ fits => exact coherent_iff.mpr ⟨fits, parts⟩
  | .select (t := t) ht _ hr =>
    obtain ⟨source, -⟩ := List.forall_mem_cons.mp parts
    have body := hr.coherent fun _ hr => hr.coherent_of_rename
    refine coherent_iff.mpr ⟨fun u hu => ?_, 
      List.forall_mem_cons.mpr ⟨source, List.forall_mem_singleton.mpr body⟩⟩
    exact Option.some.inj (hu.symm.trans ht)
  | .letIn _ hr =>
    obtain ⟨value, -⟩ := List.forall_mem_cons.mp parts
    have body := hr.coherent fun _ hr => hr.coherent_of_rename
    exact coherent_iff.mpr ⟨rfl,
      List.forall_mem_cons.mpr ⟨value, List.forall_mem_singleton.mpr body⟩⟩
  | .key (b := b) _ ht _ hr =>
    obtain ⟨list, -⟩ := List.forall_mem_cons.mp parts
    have body := hr.coherent fun _ hr => hr.coherent_of_rename
    have key : ∀ q, (Expr.lambda q b).Coherent := fun _ =>
      coherent_iff.mpr ⟨trivial, List.forall_mem_singleton.mpr body⟩
    refine coherent_iff.mpr ⟨fun _ q hq u hu => ?_,
      List.forall_mem_cons.mpr ⟨list, List.forall_mem_singleton.mpr (key _)⟩⟩
    cases hq
    exact Option.some.inj (hu.symm.trans ht)

end

/-! ## Occurrences -/

namespace Expr

/-- The innermost binder of a parameter. -/
def binder? (bound : List Param) (p : Param) : Option Param := bound.find? (·.id == p.id)

/-- Every occurrence of a bound parameter has the type of its binder. -/
def Uniform (bound : List Param) (e : Expr) : Prop :=
  ∀ around p, Within bound e around (.param p) → ∀ b, binder? around p = some b → b.ty = p.ty

/-- The types that an expression gives to members, binders and occurrences of bound parameters are
those of what they stand for. -/
structure Consistent (e : Expr) : Prop where
  coherent : e.Coherent
  uniform : e.Uniform []

variable {bound bound' : List Param} {e : Expr}

theorem uniform_iff : e.Uniform bound ↔
    (∀ p, e = .param p → ∀ b, binder? bound p = some b → b.ty = p.ty) ∧
      ∀ x ∈ e.parts bound, x.2.Uniform x.1 := by
  constructor
  · intro h
    exact ⟨fun p hp => h bound p (hp ▸ .self), fun x hx around p hp => h around p (hp.of_part hx)⟩
  · rintro ⟨here, parts⟩ around p hp
    rcases within_iff.mp hp with ⟨rfl, rfl⟩ | ⟨x, hx, hp⟩
    · exact here p rfl
    · exact parts x hx around p hp

theorem uniform_param {p : Param} (h : ∀ b, binder? bound p = some b → b.ty = p.ty) :
    (Expr.param p).Uniform bound := by
  refine uniform_iff.mpr ⟨fun q hq => ?_, List.forall_mem_nil _⟩
  cases hq
  exact h

theorem Uniform.part (h : e.Uniform bound) {x : List Param × Expr} (hx : x ∈ e.parts []) :
    x.2.Uniform (x.1 ++ bound) := (uniform_iff.mp h).2 _ (mem_parts_around hx bound)

theorem binder?_append (inner : List Param) (p : Param) :
    binder? (inner ++ bound) p = (binder? inner p).or (binder? bound p) :=
  List.find?_append

theorem binder?_mem {p b : Param} (h : binder? bound p = some b) : b ∈ bound ∧ b.id = p.id :=
  ⟨List.mem_of_find?_eq_some h, by simpa [binder?] using List.find?_some h⟩

/-- An expression is uniform where its parameters have the binders that they have elsewhere. -/
theorem Uniform.of_binders (h : e.Uniform bound) (hb : ∀ p : Param, p.id ∈ e.ids →
      ∀ b, binder? bound' p = some b → binder? bound p = some b) : e.Uniform bound' := by
  induction e using partwise generalizing bound bound' with
  | h e ih =>
    refine uniform_iff.mpr ⟨fun p hp b hbind => ?_, fun x hx => ?_⟩
    · exact (uniform_iff.mp h).1 p hp b (hb p (mem_ids_iff.mpr (.inl ⟨p, by rw [hp]; rfl, rfl⟩)) b hbind)
    · rw [parts_eq, List.mem_map] at hx
      obtain ⟨y, hy, rfl⟩ := hx
      have child := mem_children_of_parts hy
      refine ih y.2 child (h.part hy) fun p hp b hbind => ?_
      rw [binder?_append] at hbind ⊢
      cases hin : binder? y.1 p with
      | some c => rwa [hin] at hbind
      | none =>
        rw [hin] at hbind
        exact hb p (ids_of_child child hp) b hbind

end Expr

/-- A rule leaves the occurrences of an expression uniform when the parameters bound around it are
changed from some to others, as long as the answers are uniform there. -/
structure Rule.Retypes (rule : Rule) (bound bound' : List Param) (n : Nat) (e : Expr) : Prop where
  uniform : e.Uniform bound
  kept : ∀ p around, rule.pre (.param p) around = none → .param p ∈ e.subterms →
    ∀ b, binder? bound' p = some b → binder? bound p = some b
  answer : ∀ r, rule.Answers e r → ∀ inner : List Param, (∀ b ∈ inner, b.id ∈ e.binders) →
    r.Uniform (inner ++ bound')
  drawn : ∀ i ∈ e.ids, i < n
  answerDrawn : ∀ r, rule.Answers e r → ∀ i ∈ r.ids, i < n
  outer : ∀ b ∈ bound', b.id < n

namespace Rule.Retypes

variable {rule : Rule} {bound bound' : List Param} {n k : Nat} {e : Expr}

theorem mono (h : rule.Retypes bound bound' n e) (hk : n ≤ k) : rule.Retypes bound bound' k e where
  uniform := h.uniform
  kept := h.kept
  answer := h.answer
  drawn i hi := Nat.lt_of_lt_of_le (h.drawn i hi) hk
  answerDrawn r hr i hi := Nat.lt_of_lt_of_le (h.answerDrawn r hr i hi) hk
  outer b hb := Nat.lt_of_lt_of_le (h.outer b hb) hk

theorem part (h : rule.Retypes bound bound' n e) {x : List Param × Expr} (hx : x ∈ e.parts []) :
    rule.Retypes (x.1 ++ bound) (x.1 ++ bound') n x.2 := by
  have child := mem_children_of_parts hx
  have binders : ∀ b ∈ x.1, b.id ∈ e.binders := fun b hb =>
    mem_binders_iff.mpr (.inl ⟨b, bound_of_mem_parts hx hb, rfl⟩)
  refine ⟨h.uniform.part hx, ?_, ?_, ?_, ?_, ?_⟩
  · intro p around hp hmem b hb
    rw [binder?_append] at hb ⊢
    cases hin : binder? x.1 p with
    | some c => rwa [hin] at hb
    | none =>
      rw [hin] at hb
      exact h.kept p around hp (mem_subterms_of_child child hmem) b hb
  · intro r hr inner hinner
    rw [← List.append_assoc]
    refine h.answer r (hr.of_child child) _ fun b hb => ?_
    rcases List.mem_append.mp hb with hb | hb
    · exact mem_binders_iff.mpr (.inr ⟨x.2, child, hinner b hb⟩)
    · exact binders b hb
  · exact fun i hi => h.drawn i (ids_of_child child hi)
  · exact fun r hr => h.answerDrawn r (hr.of_child child)
  · intro b hb
    rcases List.mem_append.mp hb with hb | hb
    · exact h.drawn _ (ids_of_binders (binders b hb))
    · exact h.outer b hb

/-- The renaming of a binder to a fresh one. -/
theorem rename {p q : Param} (h : e.Uniform (p :: bound)) (drawn : ∀ i ∈ e.ids, i < q.id)
    (outer : ∀ b ∈ bound, b.id < q.id) :
    (Rule.rename p q).Retypes (p :: bound) (q :: bound) (q.id + 1) e := by
  have fresh : ∀ i, i < q.id → (q.id == i) = false := fun i hi => by
    simpa using Nat.ne_of_gt hi
  refine ⟨h, ?_, ?_, ?_, ?_, ?_⟩
  · intro x around hx hmem b hb
    have different : (p.id == x.id) = false := by
      by_contra same
      rw [pre_rename_of_eq (by simpa using Eq.symm (by simpa using same))] at hx
      cases hx
    have below := fresh x.id (drawn _ (mem_ids.mpr ⟨_, hmem, x, rfl, rfl⟩))
    simp only [binder?, List.find?_cons, below, different] at hb ⊢
    exact hb
  · intro r hr inner hinner
    obtain ⟨rfl, -⟩ := hr.of_rename
    refine uniform_param fun b hb => ?_
    have missing : binder? inner q = none := List.find?_eq_none.mpr fun b hb => by
      simpa using Nat.ne_of_lt (drawn _ (ids_of_binders (hinner b hb)))
    rw [binder?_append, missing] at hb
    simp only [binder?, List.find?_cons, beq_self_eq_true, Option.none_or, Option.some.injEq] at hb
    rw [hb]
  · exact fun i hi => Nat.lt_succ_of_lt (drawn i hi)
  · intro r hr i hi
    obtain ⟨rfl, -⟩ := hr.of_rename
    cases List.mem_singleton.mp hi
    exact Nat.lt_succ_self _
  · intro b hb
    rcases List.mem_cons.mp hb with rfl | hb
    · exact Nat.lt_succ_self _
    · exact Nat.lt_succ_of_lt (outer b hb)

end Rule.Retypes

mutual

/-- After a traversal the occurrences have the types of their binders. -/
theorem Runs.uniform {rule : Rule} {around : List Param} {e d : Expr} {hit : Bool} {n k : Nat}
    (h : Runs rule around e n d hit k) {bound bound' : List Param}
    (he : rule.Retypes bound bound' n e) : d.Uniform bound' := by
  match h with
  | .before _ hpre => exact he.answer _ ⟨e, self_mem_subterms e, around, .inl hpre⟩ [] nofun
  | .after _ _ _ hpost => exact he.answer _ ⟨e, self_mem_subterms e, around, .inr hpost⟩ [] nofun
  -- The binders around the parts are the old ones; only when the parts are done is one exchanged.
  | @Runs.rebuilt _ _ _ _ es _ _ _ _ hpre hv hs _ =>
    refine hs.uniform (uniform_iff.mpr ⟨fun p hp b hb => ?_, fun x hx => ?_⟩)
      (hv.ids_lt hpre he.drawn he.answerDrawn) fun b hb => Nat.lt_of_lt_of_le (he.outer b hb) hv.le
    · cases param_of_withParts hp
      exact (uniform_iff.mp he.uniform).1 p rfl b (he.kept p around hpre (self_mem_subterms _) b hb)
    · obtain ⟨y, hy, rfl⟩ := mem_parts_withParts hv.length_children hx
      have part := he.part (List.of_mem_zip hy).1
      exact hv.uniform ((y.1.1 ++ around, y.1.2), y.2) (mem_zip_parts hy around) part

theorem Visits.uniform {rule : Rule} {xs : List (List Param × Expr)} {es : List Expr} {hit : Bool}
    {n k : Nat} (h : Visits rule xs n es hit k) {bound bound' : List Param} : ∀ y ∈ xs.zip es,
      rule.Retypes bound bound' n y.1.2 → y.2.Uniform bound' := by
  match h with
  | .nil _ _ => exact nofun
  | .cons hr hv =>
    exact List.forall_mem_cons.mpr ⟨hr.uniform, fun y hy he => hv.uniform y hy (he.mono hr.le)⟩

theorem Settles.uniform {e d : Expr} {n k : Nat} (h : Settles e n d k) {bound : List Param}
    (he : e.Uniform bound) (drawn : ∀ i ∈ e.ids, i < n) (outer : ∀ b ∈ bound, b.id < n) :
    d.Uniform bound := by
  match h with
  | .same _ _ => exact he
  | @Settles.select source body _ p _ _ _ _ _ _ hr =>
    obtain ⟨-, parts⟩ := uniform_iff.mp he
    simp only [Expr.parts, List.forall_mem_cons] at parts
    have inside := hr.uniform (Rule.Retypes.rename parts.2.1
      (fun i hi => drawn i (ids_of_child (by simp [children]) hi)) outer)
    refine uniform_iff.mpr ⟨nofun, ?_⟩
    simp only [Expr.parts, List.forall_mem_cons]
    exact ⟨parts.1, inside, nofun⟩
  | @Settles.letIn value body _ p _ _ _ _ hr =>
    obtain ⟨-, parts⟩ := uniform_iff.mp he
    simp only [Expr.parts, List.forall_mem_cons] at parts
    have inside := hr.uniform (Rule.Retypes.rename parts.2.1
      (fun i hi => drawn i (ids_of_child (by simp [children]) hi)) outer)
    refine uniform_iff.mpr ⟨nofun, ?_⟩
    simp only [Expr.parts, List.forall_mem_cons]
    exact ⟨parts.1, inside, nofun⟩
  | @Settles.key _ list body _ p _ _ _ _ _ _ _ hr =>
    obtain ⟨-, parts⟩ := uniform_iff.mp he
    simp only [Expr.parts, children, List.map_cons, List.forall_mem_cons] at parts
    obtain ⟨-, keyParts⟩ := uniform_iff.mp parts.2.1
    have inside := hr.uniform (Rule.Retypes.rename (keyParts _ List.mem_cons_self)
      (fun i hi => drawn i (ids_of_child (List.mem_cons_of_mem _ List.mem_cons_self)
        (ids_of_child List.mem_cons_self hi))) outer)
    refine uniform_iff.mpr ⟨nofun, ?_⟩
    simp only [Expr.parts, children, List.map_cons, List.forall_mem_cons]
    refine ⟨parts.1, uniform_iff.mpr ⟨nofun, ?_⟩, nofun⟩
    simpa only [Expr.parts, List.forall_mem_cons] using ⟨inside, nofun⟩

end

/-! ## Traversals that change nothing -/

theorem Expr.withParts_children {e : Expr} (he : e.Fits) : e.withParts e.children = e := by
  cases e with
  | member target name t =>
    simp only [children, withParts]
    cases h : target.ty.member? name with
    | none => rfl
    | some u => rw [he u h, Option.getD_some]
  | record name fields =>
    simp [children, withParts, List.zip_map']
  | _ => rfl

/-- Where types agree no binder changes. -/
theorem Settles.eq_of_fits {e d : Expr} {n k : Nat} (h : Settles e n d k) (he : e.Fits) : d = e := by
  match h with
  | .same _ _ => rfl
  | .select ht hp _ => exact absurd (he _ ht) hp
  | .letIn hp _ => exact absurd he hp
  | .key hs ht hp _ => exact absurd (he hs _ rfl _ ht) hp

mutual

/-- A traversal that answers with what stands at the positions changes nothing. -/
theorem Runs.eq_self {rule : Rule} {bound : List Param} {e d : Expr} {hit : Bool} {n k : Nat}
    (h : Runs rule bound e n d hit k) (he : e.Coherent) (same : ∀ around s, Within bound e around s →
      ∀ r, rule.pre s around = some r ∨ rule.post s around = some r → r = s) : d = e := by
  match h with
  | .before _ hpre => exact same bound e .self _ (.inl hpre)
  | .after _ _ _ hpost => exact same bound e .self _ (.inr hpost)
  | .rebuilt _ hv hs _ =>
    have fits := he e (self_mem_subterms e)
    have parts := hv.eq_self fun x hx => ⟨he.child (mem_children_of_parts hx),
      fun around s hs => same around s (hs.of_part hx)⟩
    rw [map_snd_parts] at parts
    subst parts
    rw [withParts_children fits] at hs
    exact hs.eq_of_fits fits

theorem Visits.eq_self {rule : Rule} {xs : List (List Param × Expr)} {es : List Expr} {hit : Bool}
    {n k : Nat} (h : Visits rule xs n es hit k) (hx : ∀ x ∈ xs, x.2.Coherent ∧
      ∀ around s, Within x.1 x.2 around s →
        ∀ r, rule.pre s around = some r ∨ rule.post s around = some r → r = s) :
    es = xs.map (·.2) := by
  match h with
  | .nil _ _ => rfl
  | .cons hr hv =>
    obtain ⟨⟨first, same⟩, rest⟩ := List.forall_mem_cons.mp hx
    rw [List.map_cons, hr.eq_self first same, hv.eq_self rest]

end

/-! ## Replacements -/

namespace Expr

variable {e r : Expr} {n : Nat}

/-- An expression that may be put into another one: it is consistent, its parameters have been drawn,
and it mentions none that the other one binds. -/
structure Admits (n : Nat) (e r : Expr) : Prop where
  consistent : r.Consistent
  drawn : ∀ i ∈ r.ids, i < n
  apart : ∀ i ∈ r.ids, i ∉ e.binders

/-- What is equal to an admitted expression within the other one is admitted too. -/
theorem Admits.of_eqv (h : e.Admits n r) (he : e.Coherent) (drawn : ∀ i ∈ e.ids, i < n) {s : Expr}
    (hs : s ∈ e.subterms) (heq : (s == r) = true) : e.Admits n s := by
  have apart : ∀ i ∈ s.ids, i ∉ e.binders := fun i hi =>
    h.apart i ((ids_of_eqv heq).mp hi)
  refine ⟨⟨he.subterm hs, fun around p hp b hb => ?_⟩, fun i hi => drawn i (ids_of_subterm hs hi),
    apart⟩
  rcases hp.bound b (binder?_mem hb).1 with hb | hb
  · cases hb
  · exact absurd (binders_of_subterm hs hb) (apart _ (ids_of_binders hb))

end Expr

theorem Runs.consistent {rule : Rule} {e d : Expr} {hit : Bool} {n k : Nat}
    (h : Runs rule [] e n d hit k) (he : e.Consistent) (drawn : ∀ i ∈ e.ids, i < n)
    (answers : ∀ r, rule.Answers e r → e.Admits n r) : d.Consistent where
  coherent := h.coherent fun r hr => (answers r hr).consistent.coherent
  uniform := h.uniform ⟨he.uniform, fun _ _ _ _ _ => id, fun r hr inner hinner => by
    refine (answers r hr).consistent.uniform.of_binders fun p hp b hb => ?_
    obtain ⟨hmem, same⟩ := binder?_mem hb
    rw [List.append_nil] at hmem
    exact absurd (same ▸ hinner b hmem) ((answers r hr).apart p.id hp), drawn,
    fun r hr => (answers r hr).drawn, nofun⟩

namespace Expr

variable {e r : Expr} {n : Nat} {pairs : List (Expr × Expr)} {t : Ty}

theorem identity_pre {s d : Expr} {bound : List Param}
    (h : (Rule.identity pairs).pre s bound = some d) : ∃ pair ∈ pairs, (pair.1 == s) = true ∧ pair.2 = d := by
  obtain ⟨pair, hfind, hd⟩ := Option.map_eq_some_iff.mp h
  exact ⟨pair, List.mem_of_find?_eq_some hfind, by simpa using List.find?_some hfind, hd⟩

theorem replaceAll_consistent (he : e.Consistent) (drawn : ∀ i ∈ e.ids, i < n)
    (hp : ∀ pair ∈ pairs, e.Admits n pair.2) : (e.replaceAll pairs n).1.Consistent := by
  by_cases hpairs : pairs = []
  · subst hpairs
    exact he
  · obtain ⟨hit, k, run⟩ := replaceAll_runs hpairs e n
    refine run.consistent he drawn fun r hr => ?_
    obtain ⟨x, -, bound, hr | hr⟩ := hr
    · obtain ⟨pair, hpair, -, rfl⟩ := identity_pre hr
      exact hp pair hpair
    · cases hr

theorem replaceByType_consistent (he : e.Consistent) (drawn : ∀ i ∈ e.ids, i < n)
    (hr : e.Admits n r) : (e.replaceByType t r n).1.Consistent := by
  obtain ⟨hit, k, run⟩ := replaceByType_runs t r e n
  refine run.consistent he drawn fun d hd => ?_
  obtain ⟨x, hx, bound, hd | hd⟩ := hd
  · cases hd
  · rcases Rule.byType_post.mp hd with ⟨heq, rfl⟩ | ⟨-, -, rfl⟩
    · exact hr.of_eqv he.coherent drawn hx heq
    · exact hr

theorem replaceParamsByType_consistent (he : e.Consistent) (drawn : ∀ i ∈ e.ids, i < n)
    (hr : e.Admits n r) : (e.replaceParamsByType t r n).1.Consistent := by
  obtain ⟨hit, k, run⟩ := replaceParamsByType_runs t r e n
  refine run.consistent he drawn fun d hd => ?_
  obtain ⟨x, hx, bound, hd | hd⟩ := hd
  · obtain ⟨-, -, rfl⟩ := Rule.paramsByType_pre.mp hd
    exact hr
  · cases hd

theorem replaceAll_of_no_match (he : e.Coherent)
    (hp : ∀ x ∈ e.subterms, ∀ pair ∈ pairs, (pair.1 == x) = false) :
    (e.replaceAll pairs n).1 = e := by
  by_cases hpairs : pairs = []
  · subst hpairs
    rfl
  · obtain ⟨hit, k, run⟩ := replaceAll_runs hpairs e n
    refine run.eq_self he fun around s hs d hd => ?_
    rcases hd with hd | hd
    · obtain ⟨pair, hpair, heq, -⟩ := identity_pre hd
      rw [hp s hs.mem_subterms pair hpair] at heq
      cases heq
    · cases hd

theorem replaceByType_of_no_match (he : e.Coherent)
    (hm : ∀ around s, Within [] e around s → ¬s.Matches t around) :
    (e.replaceByType t r n).1 = e := by
  obtain ⟨hit, k, run⟩ := replaceByType_runs t r e n
  refine run.eq_self he fun around s hs d hd => ?_
  rcases hd with hd | hd
  · cases hd
  · rcases Rule.byType_post.mp hd with ⟨-, rfl⟩ | ⟨-, matched, -⟩
    · rfl
    · exact absurd matched (hm around s hs)

theorem replaceParamsByType_of_no_match (he : e.Coherent)
    (hm : ∀ around s, Within [] e around s → s.MatchesParam t around → (s == r) = true) :
    (e.replaceParamsByType t r n).1 = e := by
  obtain ⟨hit, k, run⟩ := replaceParamsByType_runs t r e n
  refine run.eq_self he fun around s hs d hd => ?_
  rcases hd with hd | hd
  · obtain ⟨other, matched, -⟩ := Rule.paramsByType_pre.mp hd
    rw [hm around s hs matched] at other
    cases other
  · cases hd

/-- Replacement keeps an expression consistent, by equality, by type and for parameters of a type, and
changes nothing where nothing matches or every pair replaces an expression by itself. -/
theorem replacements_consistent (he : e.Consistent) (drawn : ∀ i ∈ e.ids, i < n)
    (pairs : List (Expr × Expr)) (t : Ty) (r : Expr) :
    ((∀ pair ∈ pairs, e.Admits n pair.2) → (e.replaceAll pairs n).1.Consistent) ∧
    (e.Admits n r → (e.replaceByType t r n).1.Consistent ∧
      (e.replaceParamsByType t r n).1.Consistent) ∧
    ((∀ x ∈ e.subterms, ∀ pair ∈ pairs, (pair.1 == x) = false) → (e.replaceAll pairs n).1 = e) ∧
    ((∀ around s, Within [] e around s → ¬s.Matches t around) → (e.replaceByType t r n).1 = e) ∧
    ((∀ around s, Within [] e around s → s.MatchesParam t around → (s == r) = true) →
      (e.replaceParamsByType t r n).1 = e) ∧
    ((∀ pair ∈ pairs, pair.2 = pair.1) → Identified (e :: pairs.map (·.1)) →
      ((e.replaceAll pairs n).1 == e) = true) := by
  refine ⟨replaceAll_consistent he drawn, fun hr => ⟨replaceByType_consistent he drawn hr,
    replaceParamsByType_consistent he drawn hr⟩, replaceAll_of_no_match he.coherent,
    replaceByType_of_no_match he.coherent, replaceParamsByType_of_no_match he.coherent,
    fun self one => ?_⟩
  obtain ⟨d, hd, same⟩ := replaceAll_self he.coherent self one
  rw [hd]
  exact same

theorem uniform_let_member (x a : Param) (name : String) (t : Ty) :
    (Expr.letIn x (.param a) (.member (.param x) name t)).Uniform [] := by
  have occurrence : (Expr.param x).Uniform [x] := by
    refine uniform_param fun b hb => ?_
    rw [binder?, List.find?_cons, beq_self_eq_true] at hb
    cases hb
    rfl
  refine uniform_iff.mpr ⟨nofun, List.forall_mem_cons.mpr ⟨?_, List.forall_mem_singleton.mpr ?_⟩⟩
  · exact uniform_param fun b hb => by cases hb
  · exact uniform_iff.mpr ⟨nofun, List.forall_mem_singleton.mpr occurrence⟩

/-- A bound parameter whose value is replaced by one of another type. -/
theorem replacements_consistent_let :
    let p : Param := ⟨0, "p", .record "R" [("a", .bool)] false⟩
    let q : Param := ⟨1, "q", .record "R" [("a", .count)] false⟩
    let x : Param := ⟨2, "x", p.ty⟩
    let e : Expr := .letIn x (.param p) (.member (.param x) "a" .bool)
    e.Consistent ∧ (∀ i ∈ e.ids, i < 3) ∧ e.Admits 3 (.param q) ∧
      (e.replaceAll [(.param p, .param q)] 3).1.Consistent := by
  intro p q x e
  have coherent : e.Coherent := by
    simp [e, p, x, Coherent, subterms, Fits, Expr.ty, Ty.member?, Dict.find?]
  have he : e.Consistent := ⟨coherent, uniform_let_member x p "a" .bool⟩
  have drawn : ∀ i ∈ e.ids, i < 3 := by decide
  have alone : (Expr.param q).Uniform [] := uniform_param fun b hb => by cases hb
  have hq : e.Admits 3 (.param q) := ⟨⟨coherent_param q, alone⟩, by decide, by decide⟩
  exact ⟨he, drawn, hq, (replacements_consistent he drawn [(.param p, .param q)] .bool (.param q)).1
    (List.forall_mem_singleton.mpr hq)⟩

end Expr

end FieldPlan
