import FieldPlan.Proofs.Expr.Rebuilding

/-!
# A traversal rebuilds its expression

A traversal puts its answers at the positions with a hit. The renaming of a binder that changed its type
runs through the finished body, copies included, and must leave the copies what they are.

* `Copies` : what stays a copy when a parameter that it does not mention is renamed;
* `Runs.rebuilds_renamed` : the renaming of a binder keeps an expression rebuilt;
* `Runs.flag_iff` : a traversal reports a hit when the rule answers at a position;
* `Rule.Rewrites`, `Rule.Separate`, `Runs.rebuilds` : a traversal rebuilds its expression.
-/

namespace FieldPlan

open Expr

/-! ## Renamings -/

/-- What is put at positions stays a copy when a parameter that it does not mention is renamed, and
when, as a sort key, it gets a fresh parameter. -/
structure Copies (copy : Expr → Prop) : Prop where
  renamed : ∀ {c c' : Expr} {x x' : Param} {around : List Param} {flag : Bool} {n k : Nat}, copy c →
    x.id ∉ c.ids → (∀ i ∈ c.ids, i < x'.id) → x'.id < n →
    Runs (.rename x x') around c n c' flag k → copy c'
  key : ∀ {c c' : Expr} {q q' : Param} {flag : Bool} {n k : Nat}, copy (.lambda q c) →
    (∀ i ∈ (Expr.lambda q c).ids, i < q'.id) → q'.id < n → Runs (.rename q q') [] c n c' flag k →
    copy (.lambda q' c')

/-- A parameter that is a binder or does not occur may be exchanged for a fresh one. -/
structure Exchanges (x x' : Param) (binders : List (Param × Param)) (e : Expr) : Prop where
  bound : (∃ y ∈ binders, y.2.id = x.id) ∨ x.id ∉ e.ids
  fresh : ∀ i ∈ e.ids, i < x'.id
  outer : ∀ y ∈ binders, y.2.id < x'.id

section Renaming

variable {hit : List Param → Expr → Prop} {copy : Expr → Prop} {binders : List (Param × Param)}
  {e d : Expr} {x x' : Param}

theorem mem_zip_map_zip {α β γ δ : Type} {as : List α} {bs : List β} {cs : List γ} {f : β × γ → δ}
    {z : α × δ} (h : z ∈ as.zip ((bs.zip cs).map f)) :
    ∃ a b c, (a, b) ∈ as.zip bs ∧ (b, c) ∈ bs.zip cs ∧ z = (a, f (b, c)) := by
  induction as generalizing bs cs with
  | nil => cases h
  | cons a as ih =>
    match bs, cs, h with
    | b :: bs, c :: cs, h =>
      rcases List.mem_cons.mp h with rfl | h
      · exact ⟨a, b, c, List.mem_cons_self, List.mem_cons_self, rfl⟩
      · obtain ⟨a', b', c', hab, hbc, rfl⟩ := ih h
        exact ⟨a', b', c', List.mem_cons_of_mem _ hab, List.mem_cons_of_mem _ hbc, rfl⟩

theorem Exchanges.part (h : Exchanges x x' binders d) {a b : List Param × Expr}
    (hb : b ∈ d.parts []) : Exchanges x x' (a.1.zip b.1 ++ binders) b.2 := by
  have child := mem_children_of_parts hb
  refine ⟨?_, fun i hi => h.fresh i (ids_of_child child hi), fun y hy => ?_⟩
  · rcases h.bound with ⟨y, hy, same⟩ | absent
    · exact .inl ⟨y, List.mem_append_right _ hy, same⟩
    · exact .inr fun hi => absent (ids_of_child child hi)
  · rcases List.mem_append.mp hy with hy | hy
    · exact h.fresh _ (ids_of_bound (bound_of_mem_parts hb (List.of_mem_zip hy).2))
    · exact h.outer y hy

theorem Exchanges.absent (h : Exchanges x x' binders d) (hd : ∀ y ∈ binders, y.2.id ∉ d.ids) :
    x.id ∉ d.ids := by
  rcases h.bound with ⟨y, hy, same⟩ | absent
  · exact same ▸ hd y hy
  · exact absent

/-- The binder of an expression is not the parameter that is exchanged in it. -/
theorem Exchanges.binder_ne (h : Exchanges x x' binders d) {q : Param} (hq : d.bound? = some q)
    (hd : ∀ y ∈ binders, y.2.id ≠ q.id) : q.id ≠ x.id := by
  rcases h.bound with ⟨y, hy, same⟩ | absent
  · exact fun hx => hd y hy (same.trans hx.symm)
  · exact fun hx => absent (hx ▸ ids_of_bound hq)

/-- The numbers of a renamed expression are old ones, drawn, or that of the new parameter. -/
theorem Runs.ids_renamed {around : List Param} {flag : Bool} {n k : Nat}
    (h : Runs (.rename x x') around e n d flag k) :
    ∀ i ∈ d.ids, i ∈ e.ids ∨ n ≤ i ∨ i = x'.id ∧ x.id ∈ e.ids := by
  refine uses_ids.mp (h.uses ⟨fun q _ hq _ => .inl ?_, fun y hy q hq => .inl ?_, fun r hr => ?_⟩
    fun q hq _ => ⟨.inr (.inl hq), .inr (.inl hq)⟩)
  · exact mem_ids.mpr ⟨_, hq, q, rfl, rfl⟩
  · exact mem_ids.mpr ⟨y, hy, q, own_of_bound hq, rfl⟩
  · obtain ⟨rfl, occurs⟩ := hr.of_rename
    exact uses_param (.inr (.inr ⟨rfl, occurs⟩))

/-- A copy stays a copy that mentions none of the binders. -/
theorem put_renamed (hcopy : Copies copy) {around : List Param} {flag : Bool} {n k : Nat}
    (h : Runs (.rename x x') around e n d flag k) (he : copy e) (apart : ∀ y ∈ binders, y.2.id ∉ e.ids)
    (hx : Exchanges x x' binders e) (hn : x'.id < n) :
    copy d ∧ ∀ y ∈ rebinders x x' binders, y.2.id ∉ d.ids := by
  have absent := hx.absent apart
  refine ⟨hcopy.renamed he absent hx.fresh hn h, fun y hy hi => ?_⟩
  have old : y.2.id ∉ e.ids ∧ y.2.id < n := by
    rcases mem_rebinders hy with same | ⟨-, z, hz, same⟩
    · rw [same]
      exact ⟨fun hi => Nat.lt_irrefl _ (hx.fresh _ hi), hn⟩
    · rw [← same]
      exact ⟨apart z hz, Nat.lt_trans (hx.outer z hz) hn⟩
  rcases h.ids_renamed _ hi with hi | hi | ⟨-, occurs⟩
  · exact old.1 hi
  · exact absurd old.2 (Nat.not_lt.mpr hi)
  · exact absent occurs

/-- Put back together from rebuilt parts, an expression is rebuilt. -/
theorem keep_withParts {around : List Param} {es : List Expr}
    (hpre : (Rule.rename x x').pre d around = none) (hl : es.length = d.children.length)
    (hn : ¬hit (binders.map (·.1)) e) (he : Rebuilds hit copy binders e d)
    (hx : Exchanges x x' binders d)
    (parts : ∀ a b c, (a, b) ∈ (e.parts []).zip (d.parts []) → (b, c) ∈ (d.parts []).zip es →
      Rebuilds hit copy (rebinders x x' (a.1.zip b.1 ++ binders)) a.2 c) :
    Rebuilds hit copy (rebinders x x' binders) e (d.withParts es) := by
  obtain ⟨frame, param, binder, -⟩ := he.kept hn
  refine .keep (by simpa using hn) ((frame_withParts hl).trans frame) ?_ ?_ ?_
  · intro p p' hp hp'
    cases param_of_withParts hp'
    have other : p'.id ≠ x.id := fun same => by
      rw [Rule.pre_rename_of_eq same] at hpre
      cases hpre
    exact (param p p' hp rfl).rebinders_of_ne other (Nat.ne_of_lt (hx.fresh _ List.mem_cons_self))
  · intro q hq y hy
    rw [bound_withParts] at hq
    rcases mem_rebinders hy with same | ⟨-, z, hz, same⟩
    · rw [same]
      exact Nat.ne_of_gt (hx.fresh _ (ids_of_bound hq))
    · exact same ▸ binder q hq z hz
  · intro z hz
    rw [parts_withParts hl] at hz
    obtain ⟨a, b, c, hab, hbc, rfl⟩ := mem_zip_map_zip hz
    have own : rebinders x x' (a.1.zip b.1) = a.1.zip b.1 := rebinders_apart fun y hy =>
      have hq := bound_of_mem_parts (List.of_mem_zip hab).2 (List.of_mem_zip hy).2
      hx.binder_ne hq (binder _ hq)
    have part := parts a b c hab hbc
    rwa [rebinders_append, own] at part

theorem rebinders_own {p p' q : Param} (h : ∀ y ∈ binders, y.2.id ≠ p'.id) :
    rebinders p' q ((p, p') :: binders) = (p, q) :: binders := by
  rw [← List.singleton_append, rebinders_append, rebinders_apart h]
  simp [rebinders]

/-- The binder of a body may be exchanged for a fresh parameter. -/
theorem exchanges_own {p p' : Param} {n : Nat} (name : String) (t : Ty) (hd : ∀ i ∈ d.ids, i < n)
    (hp : p'.id < n) (outer : ∀ y ∈ binders, y.2.id < n) :
    Exchanges p' ⟨n, name, t⟩ ((p, p') :: binders) d :=
  ⟨.inl ⟨_, List.mem_cons_self, rfl⟩, hd, List.forall_mem_cons.mpr ⟨hp, outer⟩⟩

mutual

/-- The renaming of a binder to a fresh parameter keeps an expression rebuilt. -/
theorem Runs.rebuilds_renamed {rule : Rule} {around : List Param} {c d : Expr} {flag : Bool}
    {n k : Nat} (h : Runs rule around c n d flag k) {x x' : Param} (hrule : rule = .rename x x')
    (hcopy : Copies copy) {binders : List (Param × Param)} {e : Expr}
    (he : Rebuilds hit copy binders e c) (hx : Exchanges x x' binders c) (hn : x'.id < n) :
    Rebuilds hit copy (rebinders x x' binders) e d := by
  by_cases hhit : hit (binders.map (·.1)) e
  -- The renaming runs through copies as well, but does not answer there.
  · cases he with
    | keep none => exact absurd hhit none
    | put _ hc apart =>
      obtain ⟨hd, apart⟩ := put_renamed hcopy (hrule ▸ h) hc apart hx hn
      exact .put (by simpa using hhit) hd apart
  match h with
  | .before _ hpre =>
    obtain ⟨p', rfl, same, rfl⟩ := Rule.pre_rename (hrule ▸ hpre)
    obtain ⟨frame, param, -, -⟩ := he.kept hhit
    obtain ⟨p, rfl⟩ := frame_param frame
    refine .keep (by simpa using hhit) frame (fun q q' hq hq' => ?_) nofun nofun
    cases hq
    cases hq'
    have bound : ∃ y ∈ binders, y.2.id = x.id := hx.bound.resolve_right fun absent =>
      absent (same ▸ List.mem_cons_self)
    exact (param p p' rfl rfl).rebinders_of_eq same bound fun y hy => Nat.ne_of_lt (hx.outer y hy)
  | .rebuilt hpre hv hs _ =>
    have answers : ∀ r, rule.Answers c r → ∀ i ∈ r.ids, i < n := fun r hr i hi => by
      obtain ⟨rfl, -⟩ := Rule.Answers.of_rename (hrule ▸ hr)
      cases List.mem_singleton.mp hi
      exact hn
    refine hs.rebuilds hcopy (keep_withParts (hrule ▸ hpre) hv.length_children hhit he hx
      fun a b c hab hbc => ?_) (by simpa using hhit) (hv.ids_lt hpre (fun i hi =>
        Nat.lt_trans (hx.fresh i hi) hn) answers) fun y hy => ?_
    · exact hv.rebuilds_renamed hrule hcopy ((b.1 ++ around, b.2), c) (mem_zip_parts hbc around)
        ((he.kept hhit).2.2.2 _ hab) (hx.part (List.of_mem_zip hab).2) hn
    · refine Nat.lt_of_lt_of_le ?_ hv.le
      rcases mem_rebinders hy with same | ⟨-, z, hz, same⟩
      · exact same ▸ hn
      · exact same ▸ Nat.lt_trans (hx.outer z hz) hn
  | .after _ _ _ hpost =>
    rw [hrule] at hpost
    cases hpost

theorem Visits.rebuilds_renamed {rule : Rule} {xs : List (List Param × Expr)} {es : List Expr}
    {flag : Bool} {n k : Nat} (h : Visits rule xs n es flag k) {x x' : Param}
    (hrule : rule = .rename x x') (hcopy : Copies copy) {binders : List (Param × Param)} {e : Expr} :
    ∀ y ∈ xs.zip es, Rebuilds hit copy binders e y.1.2 → Exchanges x x' binders y.1.2 → x'.id < n →
      Rebuilds hit copy (rebinders x x' binders) e y.2 := by
  match h with
  | .nil _ _ => exact nofun
  | .cons hr hv =>
    exact List.forall_mem_cons.mpr ⟨hr.rebuilds_renamed hrule hcopy, fun y hy he hx hn =>
      hv.rebuilds_renamed hrule hcopy y hy he hx (Nat.lt_of_lt_of_le hn hr.le)⟩

/-- A binder that gets a fresh parameter keeps an expression rebuilt. -/
theorem Settles.rebuilds {c d : Expr} {n k : Nat} (h : Settles c n d k) (hcopy : Copies copy)
    {binders : List (Param × Param)} {e : Expr} (he : Rebuilds hit copy binders e c)
    (hhit : ¬hit (binders.map (·.1)) e) (drawn : ∀ i ∈ c.ids, i < n)
    (outer : ∀ y ∈ binders, y.2.id < n) : Rebuilds hit copy binders e d := by
  match h with
  | .same _ _ => exact he
  | @Settles.select source body _ p _ _ _ _ _ _ hr =>
    obtain ⟨frame, -, binder, part⟩ := he.kept hhit
    obtain ⟨source₀, p₀, body₀, rfl⟩ : ∃ s q b, e = .select s q b := by
      cases e <;> simp [Expr.frame] at frame
      exact ⟨_, _, _, rfl⟩
    simp only [parts, List.zip_cons_cons, List.zip_nil_left, List.cons_append, List.nil_append,
      List.forall_mem_cons] at part
    have body := fun i hi => drawn i (ids_of_child (c := body) (by simp [children]) hi)
    have inside := hr.rebuilds_renamed rfl hcopy part.2.1
      (exchanges_own p.name _ body (drawn _ (ids_of_bound rfl)) outer)
      (Nat.lt_succ_self n)
    rw [rebinders_own (binder p rfl)] at inside
    refine .keep hhit rfl nofun (fun q hq y hy => ?_) ?_
    · cases hq
      exact Nat.ne_of_lt (outer y hy)
    · simp only [parts, List.zip_cons_cons, List.forall_mem_cons]
      exact ⟨part.1, inside, nofun⟩
  | @Settles.letIn value body _ p _ _ _ _ hr =>
    obtain ⟨frame, -, binder, part⟩ := he.kept hhit
    obtain ⟨p₀, value₀, body₀, rfl⟩ : ∃ q v b, e = .letIn q v b := by
      cases e <;> simp [Expr.frame] at frame
      exact ⟨_, _, _, rfl⟩
    simp only [parts, List.zip_cons_cons, List.zip_nil_left, List.cons_append, List.nil_append,
      List.forall_mem_cons] at part
    have body := fun i hi => drawn i (ids_of_child (c := body) (by simp [children]) hi)
    have inside := hr.rebuilds_renamed rfl hcopy part.2.1
      (exchanges_own p.name _ body (drawn _ (ids_of_bound rfl)) outer)
      (Nat.lt_succ_self n)
    rw [rebinders_own (binder p rfl)] at inside
    refine .keep hhit rfl nofun (fun q hq y hy => ?_) ?_
    · cases hq
      exact Nat.ne_of_lt (outer y hy)
    · simp only [parts, List.zip_cons_cons, List.forall_mem_cons]
      exact ⟨part.1, inside, nofun⟩
  | @Settles.key f list body b p t _ _ _ _ _ _ hr =>
    obtain ⟨frame, -, binder, part⟩ := he.kept hhit
    obtain ⟨list₀, key₀, rfl⟩ : ∃ l k, e = .builtin f [l, k] := by
      cases e <;> simp [Expr.frame] at frame
      obtain ⟨rfl, length⟩ := frame
      rename_i args
      match args, length with
      | [l, k], _ => exact ⟨l, k, rfl⟩
    simp only [parts, children, List.map_cons, List.zip_cons_cons, List.zip_nil_left,
      List.nil_append, List.forall_mem_cons] at part
    have key := fun i hi =>
      drawn i (ids_of_child (c := .lambda p body) (by simp [children]) hi)
    -- The key may itself be a copy, which then gets the fresh parameter for its own.
    have newKey : Rebuilds hit copy binders key₀ (.lambda ⟨n, p.name, t⟩ b) := by
      by_cases hkey : hit (binders.map (·.1)) key₀
      · cases part.2.1 with
        | keep none => exact absurd hkey none
        | put _ hc apart =>
          refine .put hkey (hcopy.key hc key (Nat.lt_succ_self n) hr) fun y hy hi => ?_
          rcases mem_ids_iff.mp hi with ⟨q, hq, same⟩ | ⟨x, hx, hi⟩
          · cases hq
            exact Nat.ne_of_gt (outer y hy) same
          · cases List.mem_singleton.mp hx
            rcases hr.ids_renamed _ hi with hi | hi | ⟨same, -⟩
            · exact apart y hy (ids_of_child List.mem_cons_self hi)
            · exact absurd (outer y hy) (Nat.not_lt.mpr (Nat.le_of_succ_le hi))
            · exact Nat.ne_of_lt (outer y hy) same
      · obtain ⟨frameKey, -, binderKey, partKey⟩ := part.2.1.kept hkey
        obtain ⟨p₀, body₀, rfl⟩ : ∃ q b, key₀ = .lambda q b := by
          cases key₀ <;> simp [Expr.frame] at frameKey
          exact ⟨_, _, rfl⟩
        simp only [parts, List.zip_cons_cons, List.zip_nil_left, List.cons_append,
          List.nil_append, List.forall_mem_cons] at partKey
        have inside := hr.rebuilds_renamed rfl hcopy partKey.1
          (exchanges_own p.name t (fun i hi => key i (ids_of_child List.mem_cons_self hi))
            (key _ (ids_of_bound rfl)) outer) (Nat.lt_succ_self n)
        rw [rebinders_own (binderKey p rfl)] at inside
        refine .keep hkey rfl nofun (fun q hq y hy => ?_) ?_
        · cases hq
          exact Nat.ne_of_lt (outer y hy)
        · simp only [parts, List.zip_cons_cons, List.forall_mem_cons]
          exact ⟨inside, nofun⟩
    refine .keep hhit frame nofun nofun ?_
    simp only [parts, children, List.map_cons, List.zip_cons_cons, List.forall_mem_cons]
    exact ⟨part.1, newKey, nofun⟩

end

end Renaming

/-! ## Traversals -/

/-- A rule answers at a position. -/
def Rule.AnswersAt (rule : Rule) (around : List Param) (s : Expr) : Prop :=
  ∃ r, rule.pre s around = some r ∨ rule.post s around = some r

mutual

/-- A traversal reports a hit when the rule answers at a position. -/
theorem Runs.flag_iff {rule : Rule} {bound : List Param} {e d : Expr} {flag : Bool} {n k : Nat}
    (h : Runs rule bound e n d flag k) :
    flag = true ↔ ∃ around s, Within bound e around s ∧ rule.AnswersAt around s := by
  match h with
  | .before _ hpre => exact iff_of_true rfl ⟨bound, e, .self, _, .inl hpre⟩
  | .after _ _ _ hpost => exact iff_of_true rfl ⟨bound, e, .self, _, .inr hpost⟩
  | .rebuilt hpre hv _ hkept =>
    constructor
    · intro hflag
      obtain ⟨x, hx, around, s, hs, answers⟩ := hv.flag_iff.mp hflag
      exact ⟨around, s, hs.of_part hx, answers⟩
    · rintro ⟨around, s, hs, answers⟩
      refine hkept.elim id fun hpost => hv.flag_iff.mpr ?_
      rcases within_iff.mp hs with ⟨rfl, rfl⟩ | ⟨x, hx, hs⟩
      · obtain ⟨r, hr | hr⟩ := answers
        · rw [hpre] at hr
          cases hr
        · rw [hpost] at hr
          cases hr
      · exact ⟨x, hx, around, s, hs, answers⟩

theorem Visits.flag_iff {rule : Rule} {xs : List (List Param × Expr)} {es : List Expr} {flag : Bool}
    {n k : Nat} (h : Visits rule xs n es flag k) :
    flag = true ↔ ∃ x ∈ xs, ∃ around s, Within x.1 x.2 around s ∧ rule.AnswersAt around s := by
  match h with
  | .nil _ _ => simp
  | .cons hr hv => rw [Bool.or_eq_true, hr.flag_iff, hv.flag_iff, List.exists_mem_cons_iff]

end

/-- A rule puts copies at the positions with a hit and leaves the others. -/
structure Rule.Rewrites (rule : Rule) (hit : List Param → Expr → Prop) (copy : Expr → Prop) :
    Prop where
  pre : ∀ bound e r, rule.pre e bound = some r → hit bound e ∧ copy r
  kept : ∀ bound e, rule.pre e bound = none → (∃ x ∈ e.parts bound, ∃ around s,
    Within x.1 x.2 around s ∧ rule.AnswersAt around s) ∨ rule.post e bound = none → ¬hit bound e
  post : ∀ bound e r, rule.pre e bound = none → (¬∃ x ∈ e.parts bound, ∃ around s,
    Within x.1 x.2 around s ∧ rule.AnswersAt around s) → rule.post e bound = some r →
    (hit bound e ∧ copy r) ∨ (¬hit bound e ∧ r = e)

/-- No binder is bound again in its own scope, and the answers mention none of the binders. -/
structure Rule.Separate (rule : Rule) (n : Nat) (bound : List Param) (e : Expr) : Prop where
  unshadowed : e.Unshadowed bound
  drawn : ∀ i ∈ e.ids, i < n
  outer : ∀ b ∈ bound, b.id < n
  answer : ∀ r, rule.Answers e r → ∀ i ∈ r.ids, i < n ∧ i ∉ e.binders ∧ ∀ b ∈ bound, b.id ≠ i

section Traversal

variable {rule : Rule} {hit : List Param → Expr → Prop} {copy : Expr → Prop} {bound : List Param}
  {e : Expr} {n : Nat}

/-- Where a rule does not answer there is no hit. -/
theorem Rule.Rewrites.unanswered (h : rule.Rewrites hit copy) (he : ¬rule.AnswersAt bound e) :
    ¬hit bound e := by
  have none : ∀ r, ¬(rule.pre e bound = some r ∨ rule.post e bound = some r) :=
    fun r hr => he ⟨r, hr⟩
  simp only [not_or] at none
  exact h.kept bound e (Option.eq_none_iff_forall_ne_some.mpr fun r => (none r).1)
    (.inr (Option.eq_none_iff_forall_ne_some.mpr fun r => (none r).2))

theorem Rule.Separate.mono (h : rule.Separate n bound e) {m : Nat} (hm : n ≤ m) :
    rule.Separate m bound e where
  unshadowed := h.unshadowed
  drawn i hi := Nat.lt_of_lt_of_le (h.drawn i hi) hm
  outer b hb := Nat.lt_of_lt_of_le (h.outer b hb) hm
  answer r hr i hi := ⟨Nat.lt_of_lt_of_le (h.answer r hr i hi).1 hm, (h.answer r hr i hi).2⟩

theorem Rule.Separate.part (h : rule.Separate n bound e) {x : List Param × Expr}
    (hx : x ∈ e.parts bound) : rule.Separate n x.1 x.2 := by
  have child := mem_children_of_parts hx
  obtain ⟨inner, split, hmem⟩ := mem_parts hx
  have binder : ∀ b ∈ x.1, b.id ∈ e.binders ∨ b ∈ bound := fun b hb => by
    rw [split] at hb
    exact (List.mem_append.mp hb).imp_left fun hb =>
      mem_binders_iff.mpr (.inl ⟨b, bound_of_mem_parts hmem hb, rfl⟩)
  refine ⟨h.unshadowed.part hx, fun i hi => h.drawn i (ids_of_child child hi), fun b hb => ?_,
    fun r hr i hi => ?_⟩
  · exact (binder b hb).elim (fun hb => h.drawn _ (ids_of_binders hb)) (h.outer b)
  · obtain ⟨below, apart, outer⟩ := h.answer r (hr.of_child child) i hi
    refine ⟨below, fun hi => apart (mem_binders_iff.mpr (.inr ⟨x.2, child, hi⟩)), fun b hb => ?_⟩
    exact (binder b hb).elim (fun hb same => apart (same ▸ hb)) (outer b)

theorem Rule.Separate.apart (h : rule.Separate n bound e) {r : Expr} (hr : rule.Answers e r) :
    ∀ y ∈ paired bound, y.2.id ∉ r.ids := by
  intro y hy hi
  obtain ⟨b, hb, rfl⟩ := List.mem_map.mp hy
  exact (h.answer r hr _ hi).2.2 b hb rfl

mutual

/-- A traversal rebuilds its expression. -/
theorem Runs.rebuilds {rule : Rule} {bound : List Param} {e d : Expr} {flag : Bool} {n k : Nat}
    (h : Runs rule bound e n d flag k) (hrule : rule.Rewrites hit copy) (hcopy : Copies copy)
    (he : rule.Separate n bound e) : Rebuilds hit copy (paired bound) e d := by
  match h with
  | .before _ hpre =>
    obtain ⟨hhit, hr⟩ := hrule.pre bound e _ hpre
    exact .put (by simpa using hhit) hr (he.apart ⟨e, self_mem_subterms e, bound, .inl hpre⟩)
  | .after hpre hv _ hpost =>
    -- The rule may answer with what stands there; then nothing was put at all.
    have unanswered := (not_congr hv.flag_iff).mp Bool.false_ne_true
    rcases hrule.post bound e _ hpre unanswered hpost with ⟨hhit, hr⟩ | ⟨hhit, rfl⟩
    · exact .put (by simpa using hhit) hr (he.apart ⟨e, self_mem_subterms e, bound, .inr hpost⟩)
    · refine rebuilds_self he.unshadowed fun around s hs => ?_
      rcases within_iff.mp hs with ⟨rfl, rfl⟩ | ⟨x, hx, hs⟩
      · exact hhit
      · exact hrule.unanswered fun answers => unanswered ⟨x, hx, around, s, hs, answers⟩
  | .rebuilt hpre hv hs hkept =>
    have hhit : ¬hit bound e := hrule.kept bound e hpre (hkept.imp_left hv.flag_iff.mp)
    have answers := fun r hr i hi => (he.answer r hr i hi).1
    refine hs.rebuilds hcopy (.keep (by simpa using hhit) (frame_withParts hv.length_children) ?_ ?_ ?_)
      (by simpa using hhit) (hv.ids_lt hpre he.drawn answers) fun y hy => ?_
    · rintro p p' rfl hp'
      cases param_of_withParts hp'
      exact corresponds_self bound p
    · intro q hq y hy
      rw [bound_withParts] at hq
      obtain ⟨b, hb, rfl⟩ := List.mem_map.mp hy
      exact he.unshadowed bound e .self q hq b hb
    · intro z hz
      rw [parts_withParts hv.length_children] at hz
      obtain ⟨a, b, c, hab, hbc, rfl⟩ := mem_zip_map_zip hz
      rw [zip_self, List.mem_map] at hab
      obtain ⟨x, hx, same⟩ := hab
      obtain ⟨rfl, rfl⟩ := Prod.mk.inj same
      rw [← paired_append]
      exact hv.rebuilds hrule hcopy ((x.1 ++ bound, x.2), c) (mem_zip_parts hbc bound)
        (he.part (mem_parts_around hx bound))
    · obtain ⟨b, hb, rfl⟩ := List.mem_map.mp hy
      exact Nat.lt_of_lt_of_le (he.outer b hb) hv.le

theorem Visits.rebuilds {rule : Rule} {xs : List (List Param × Expr)} {es : List Expr} {flag : Bool}
    {n k : Nat} (h : Visits rule xs n es flag k) (hrule : rule.Rewrites hit copy)
    (hcopy : Copies copy) : ∀ y ∈ xs.zip es, rule.Separate n y.1.1 y.1.2 →
      Rebuilds hit copy (paired y.1.1) y.1.2 y.2 := by
  match h with
  | .nil _ _ => exact nofun
  | .cons hr hv =>
    exact List.forall_mem_cons.mpr ⟨hr.rebuilds hrule hcopy, fun y hy he =>
      hv.rebuilds hrule hcopy y hy (he.mono hr.le)⟩

end

end Traversal

end FieldPlan
