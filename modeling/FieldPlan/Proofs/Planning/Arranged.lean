import FieldPlan.Proofs.Planning.Context
import FieldPlan.Proofs.Planning.Meaning

/-!
# Sorted and sliced base expressions

* `Arranged` : a base expression arranged as arguments ask for, and what it is made of;
* `Planner.preSelection_ok` : the extensions of a field arrange its base expression, unless it was
  materialized;
* `Planner.selection_eq`, `Planner.scalarExpression_eq` : they change nothing else.
-/

namespace FieldPlan

open Expr

open Extension.Paging (addSkip addTake countExpr countArgument checkTake)

open Extension.Sort (keyField addKey addKeys)

/-- A base expression arranged by an extension that drew the parameters from `n` to `n'`. -/
structure Arranged (config : SchemaConfig) (n n' : Nat) (base : Expr) (a : Arrangement) (e : Expr) :
    Prop where
  drawn : n ≤ n'
  arranges : Arranges config base a e
  coherent : e.Coherent
  ids : ∀ i ∈ e.ids, i ∈ base.ids ∨ n ≤ i ∧ i < n'
  binders : ∀ i ∈ e.binders, i ∈ base.binders ∨ n ≤ i ∧ i < n'

/-! ## Slices -/

theorem countArgument_ok {site : Site} {name : String} {n : Option Nat}
    (h : countArgument site name = .ok n) : givenCount (site.arguments.find? name) = some n := by
  unfold countArgument at h
  generalize site.arguments.find? name = given at h ⊢
  split at h
  · cases h
    rfl
  · cases h
    rfl
  · rename_i v hnull
    have count : givenCount (some v) = v.toNat?.map some := by
      cases v <;> first | rfl | exact absurd rfl hnull
    rw [count]
    split at h
    · rename_i k hk
      cases h
      rw [hk]
      rfl
    · cases h

theorem paging_ok {p : PagingConfig} {site : Site} (hm : site.materialized = false) {base e : Expr}
    {item item' : Option Param} {n n' : Nat}
    (h : Extension.Paging.preSelection p.defaultTake p.maxTake site base item n =
      .ok ((e, item'), n')) :
    n' = n ∧ item' = item ∧ ∃ skip take, p.slice? site.arguments = some (skip, take) ∧
      e = addTake (addSkip base skip) take := by
  unfold Extension.Paging.preSelection at h
  rw [if_neg (by simp [hm])] at h
  obtain ⟨h, hn⟩ := run_lift_ok.mp h
  obtain ⟨skip, hskip, h₁⟩ := bind_ok.mp h
  obtain ⟨given, hgiven, h₂⟩ := bind_ok.mp h₁
  obtain ⟨_, hcheck, h₃⟩ := bind_ok.mp h₂
  cases h₃
  refine ⟨hn, rfl, skip, given <|> p.defaultTake <|> p.maxTake, ?_, rfl⟩
  unfold PagingConfig.slice?
  rw [countArgument_ok hskip, countArgument_ok hgiven]
  simp only [Option.bind_eq_bind, Option.bind_some]
  unfold checkTake at hcheck
  generalize (given <|> p.defaultTake <|> p.maxTake) = take at hcheck ⊢
  cases take with
  | none => rfl
  | some k =>
    cases hmax : p.maxTake with
    | none => rfl
    | some m =>
      simp only [hmax] at hcheck ⊢
      split at hcheck
      · cases hcheck
      · rename_i hle
        rw [if_neg hle]
        rfl

/-! ## Sort keys -/

section Keys

variable {config : SchemaConfig} {c : Planner} {site : Site} {element : Ty} {entity : String}
  {list : Expr}

/-- The expression of a sort key on an item. -/
theorem keyOwn_replaceParam {fresh : Nat} {f : Field} {fc : FieldConfig} {source : Resolve}
    (traits : f.Traits config fresh fc source) (hs : f.hasServices = false)
    {x : Param} (hx : fresh ≤ x.id) :
    ∃ key, f.resolve.replaceParam f.param (.param x) = pure key ∧ KeyOwn x source key ∧
      key.Coherent := by
  have hids : f.param.id ∉ (Expr.param x).ids := by
    intro h
    have hm : f.param.id = x.id := by simpa [Expr.ids, subterms, own?] using h
    exact absurd traits.below (Nat.not_lt.mpr (hm ▸ hx))
  have onContext : Over (.param x) f.resolve := by
    rw [traits.resolve]
    exact over_exprOver source traits.plain f.ty f.param .arguments
  have coherent : f.resolve.Coherent := by
    rw [traits.resolve]
    exact coherent_exprOver source traits.plain f.ty traits.flat
      Param.flat_arguments
  obtain ⟨own, -⟩ := Resolve.own_swap (C := .param x) traits.plain (Nat.ne_of_lt traits.above)
    traits.bare
  refine ⟨_, replaceOwner_eq onContext coherent (coherent_param x) hids, ?_⟩
  rw [← traits.resolve] at own
  refine ⟨?_, own.coherent (coherent_param x) fun p hp _ => hp ▸ rfl⟩
  generalize f.resolve.swap (Rule.pick [(.param f.param, .param x)]) = key at own
  cases source with
  | member path =>
    cases own with
    | member chain => exact .member chain
  | service name method args =>
    rw [traits.hasServices_eq] at hs
    cases hs
  | constant v =>
    cases own with
    | constant _ t => exact .constant v t
  | expr e => exact traits.plain.elim

theorem addKey_ok (built : config.build = .ok c.schema)
    (hsite : site.fieldOf = fun owner name => (c.schema.field? owner name).map (·.toFieldDef))
    {first : Bool} {k : Extension.Sort.Key} {e : Expr} {n n' : Nat} (hn : c.schema.fresh ≤ n)
    (h : addKey site element entity list first k n = .ok (e, n')) :
    n' = n + 1 ∧ ∃ x key source, e = .builtin (keyFunction first k.2) [list, .lambda x key] ∧
      x.id = n ∧ x.ty = element ∧ config.source? entity k.1 = some source ∧ KeyOwn x source key ∧
      key.Coherent := by
  unfold addKey at h
  obtain ⟨def', n₁, hfield, h₁⟩ := run_bind_ok.mp h
  obtain ⟨hfield, hn₁⟩ := run_lift_ok.mp hfield
  obtain rfl : n₁ = n := hn₁
  obtain ⟨x, n₂, hx, h₂⟩ := run_bind_ok.mp h₁
  cases hx
  unfold keyField at hfield
  rw [hsite] at hfield
  dsimp only at hfield
  cases hf : c.schema.field? entity k.1 with
  | none =>
    rw [hf] at hfield
    cases hfield
  | some f =>
    rw [hf] at hfield
    dsimp only [Option.map_some] at hfield
    split at hfield
    · rename_i hown
      cases hfield
      obtain ⟨hmem, rfl, hname⟩ := (SchemaConfig.indexed built).field?_ok hf
      obtain ⟨described, -, -⟩ := SchemaConfig.build_ok built
      obtain ⟨fc, source, traits⟩ := (described f hmem).traits
      have unserved : f.hasServices = false := by
        simp only [Bool.and_eq_true, Bool.not_eq_true'] at hown
        exact hown.1
      obtain ⟨key, hkey, own, coherent⟩ :=
        keyOwn_replaceParam (x := ⟨n₁, f.owner.toLower, element⟩) traits unserved hn
      rw [hkey] at h₂
      cases h₂
      refine ⟨rfl, _, key, source, rfl, rfl, rfl, ?_, own, coherent⟩
      unfold SchemaConfig.source?
      rw [← hname, traits.found]
      exact traits.source_eq
    · cases hfield

theorem Expr.KeyOwn.ids {x : Param} {source : Resolve} {key : Expr} (h : KeyOwn x source key) {i : Nat}
    (hi : i ∈ key.ids) : i = x.id := by
  cases h with
  | member chain =>
    rw [chain.ids] at hi
    simpa [Expr.ids, subterms, own?] using hi
  | constant => cases hi

theorem Expr.KeyOwn.binders {x : Param} {source : Resolve} {key : Expr} (h : KeyOwn x source key) :
    key.binders = [] := by
  cases h with
  | member chain =>
    rw [chain.binders]
    rfl
  | constant => rfl

/-- Sorting by keys draws one parameter for each. -/
theorem addKeys_ok (built : config.build = .ok c.schema)
    (hsite : site.fieldOf = fun owner name => (c.schema.field? owner name).map (·.toFieldDef))
    {first : Bool} {ks : List Extension.Sort.Key} {e : Expr} {n n' : Nat} (hn : c.schema.fresh ≤ n)
    (hlist : list.Coherent) (hty : list.ty.element? = some element)
    (h : addKeys site element entity list first ks n = .ok (e, n')) :
    n ≤ n' ∧ Sorted config entity element first ks list e ∧ e.Coherent ∧
      (∀ i ∈ e.ids, i ∈ list.ids ∨ n ≤ i ∧ i < n') ∧
      ∀ i ∈ e.binders, i ∈ list.binders ∨ n ≤ i ∧ i < n' := by
  induction ks generalizing list first n with
  | nil =>
    obtain ⟨rfl, rfl⟩ := run_pure_ok.mp h
    exact ⟨Nat.le_refl _, .nil _ _, hlist, fun _ h => .inl h, fun _ h => .inl h⟩
  | cons k ks ih =>
    obtain ⟨list', n₁, hk, h₁⟩ := run_bind_ok.mp h
    obtain ⟨rfl, x, key, source, rfl, hx, hxty, found, own, coherent⟩ := addKey_ok built hsite hn hk
    have sameTy : (Expr.builtin (keyFunction first k.2) [list, .lambda x key]).ty = list.ty := by
      cases first <;> rfl
    have coherent' : (Expr.builtin (keyFunction first k.2) [list, .lambda x key]).Coherent := by
      rw [coherent_iff]
      refine ⟨fun _ p hp u hu => ?_, ?_⟩
      · cases hp
        rw [hxty]
        exact Option.some.inj (hu.symm.trans hty)
      · simp only [children, List.mem_cons, List.not_mem_nil, or_false, forall_eq_or_imp, forall_eq]
        refine ⟨hlist, ?_⟩
        rw [coherent_iff]
        simpa [children, Fits] using coherent
    obtain ⟨hle, sorted, hcoh, hids, hbinders⟩ := ih (Nat.le_succ_of_le hn) coherent'
      (sameTy ▸ hty) h₁
    have inside : ∀ i, i ∈ (Expr.builtin (keyFunction first k.2) [list, .lambda x key]).ids →
        i ∈ list.ids ∨ i = n := by
      intro i hi
      rcases mem_ids_iff.mp hi with ⟨p, hp, -⟩ | ⟨a, ha, hia⟩
      · cases hp
      · rcases List.mem_cons.mp ha with rfl | ha
        · exact .inl hia
        · cases List.mem_singleton.mp ha
          rcases mem_ids_iff.mp hia with ⟨p, hp, rfl⟩ | ⟨b, hb, hib⟩
          · cases hp
            exact .inr hx
          · cases List.mem_singleton.mp hb
            exact .inr ((own.ids hib).trans hx)
    have binds : ∀ i, i ∈ (Expr.builtin (keyFunction first k.2) [list, .lambda x key]).binders →
        i ∈ list.binders ∨ i = n := by
      intro i hi
      rcases mem_binders_iff.mp hi with ⟨p, hp, -⟩ | ⟨a, ha, hia⟩
      · cases hp
      · rcases List.mem_cons.mp ha with rfl | ha
        · exact .inl hia
        · cases List.mem_singleton.mp ha
          rcases mem_binders_iff.mp hia with ⟨p, hp, rfl⟩ | ⟨b, hb, hib⟩
          · cases hp
            exact .inr hx
          · cases List.mem_singleton.mp hb
            rw [own.binders] at hib
            cases hib
    refine ⟨Nat.le_of_succ_le hle, .cons found hxty own sorted, hcoh, fun i hi => ?_, fun i hi => ?_⟩
    · rcases hids i hi with h | ⟨h, h'⟩
      · refine (inside i h).imp_right fun hi => ?_
        rw [hi]
        exact ⟨Nat.le_refl n, hle⟩
      · exact .inr ⟨Nat.le_of_succ_le h, h'⟩
    · rcases hbinders i hi with h | ⟨h, h'⟩
      · refine (binds i h).imp_right fun hi => ?_
        rw [hi]
        exact ⟨Nat.le_refl n, hle⟩
      · exact .inr ⟨Nat.le_of_succ_le h, h'⟩

end Keys

/-! ## Extensions -/

theorem coherent_slice {list : Expr} (h : list.Coherent) {f : Builtin} (hf : f.sorts = false)
    (n : Nat) : (Expr.builtin f [list, countExpr n]).Coherent := by
  rw [coherent_iff]
  refine ⟨fun hs => absurd hs (by simp [hf]), ?_⟩
  simp only [children, List.mem_cons, List.not_mem_nil, or_false, forall_eq_or_imp, forall_eq]
  exact ⟨h, coherent_constant _ _⟩

theorem ids_slice (list : Expr) (f : Builtin) (n : Nat) :
    (Expr.builtin f [list, countExpr n]).ids = list.ids := by
  simp [Expr.ids, countExpr, subterms, subtermsList, own?, bound?]

theorem binders_slice (list : Expr) (f : Builtin) (n : Nat) :
    (Expr.builtin f [list, countExpr n]).binders = list.binders := by
  simp [Expr.binders, countExpr, subterms, subtermsList, bound?]

/-- What slicing leaves as it is. -/
theorem slices_keep {list : Expr} (h : list.Coherent) (skip take : Option Nat) :
    (addTake (addSkip list skip) take).Coherent ∧
      (addTake (addSkip list skip) take).ids = list.ids ∧
      (addTake (addSkip list skip) take).binders = list.binders := by
  have skipped : (addSkip list skip).Coherent ∧ (addSkip list skip).ids = list.ids ∧
      (addSkip list skip).binders = list.binders := by
    match skip with
    | none | some 0 => exact ⟨h, rfl, rfl⟩
    | some (n + 1) => exact ⟨coherent_slice h rfl _, ids_slice .., binders_slice ..⟩
  match take with
  | none => exact skipped
  | some n =>
    exact ⟨coherent_slice skipped.1 rfl _, (ids_slice ..).trans skipped.2.1,
      (binders_slice ..).trans skipped.2.2⟩

section Extensions

variable {config : SchemaConfig} {c : Planner} {site : Site}

theorem sort_ok (built : config.build = .ok c.schema)
    (hsite : site.fieldOf = fun owner name => (c.schema.field? owner name).map (·.toFieldDef))
    (hm : site.materialized = false) {default : Dict Direction} {base e : Expr}
    {item item' : Option Param} {n n' : Nat} (hn : c.schema.fresh ≤ n) (hbase : base.Coherent)
    (h : Extension.Sort.preSelection default site base item n = .ok ((e, item'), n')) :
    item' = item ∧ ∃ order, sortOrder? default site.arguments = some order ∧
      Arranged config n n' base { order := order } e := by
  unfold Extension.Sort.preSelection at h
  rw [if_neg (by simp [hm])] at h
  obtain ⟨ks, n₁, hlift, h₁⟩ := run_bind_ok.mp h
  obtain ⟨hkeys, hn₁⟩ := run_lift_ok.mp hlift
  obtain rfl : n₁ = n := hn₁
  have order : sortOrder? default site.arguments = some ks := by
    unfold sortOrder?
    rw [hkeys]
    rfl
  cases ks with
  | nil =>
    cases h₁
    exact ⟨rfl, [], order, Nat.le_refl _, .plain rfl, hbase, fun _ h => .inl h, fun _ h => .inl h⟩
  | cons k ks =>
    cases hel : base.ty.element? with
    | none =>
      rw [hel] at h₁
      cases h₁
    | some element =>
      rw [hel] at h₁
      dsimp only at h₁
      cases hen : element.entityName with
      | none =>
        rw [hen] at h₁
        cases h₁
      | some entity =>
        rw [hen] at h₁
        obtain ⟨list, n₂, hadd, h₂⟩ := run_bind_ok.mp h₁
        cases h₂
        obtain ⟨hle, sorted, hcoh, hids, hbinders⟩ := addKeys_ok built hsite hn hbase hel hadd
        exact ⟨rfl, k :: ks, order, hle, .sorted (List.cons_ne_nil _ _) hel hen sorted, hcoh, hids,
          hbinders⟩

/-- Slicing what is sorted. -/
theorem Arranged.sliced {n n' : Nat} {base e : Expr} {order : List (String × Direction)}
    (h : Arranged config n n' base { order := order } e) (skip take : Option Nat) :
    Arranged config n n' base ⟨order, skip, take⟩ (addTake (addSkip e skip) take) := by
  obtain ⟨hcoh, hids, hbinders⟩ := slices_keep h.coherent skip take
  refine ⟨h.drawn, ?_, hcoh, hids ▸ h.ids, hbinders ▸ h.binders⟩
  cases h.arranges with
  | plain ho => exact .plain ho
  | sorted ho hel hen hs => exact .sorted ho hel hen hs

theorem Arranged.refl {n : Nat} {base : Expr} (h : base.Coherent) :
    Arranged config n n base {} base :=
  ⟨Nat.le_refl n, .plain rfl, h, fun _ h => .inl h, fun _ h => .inl h⟩

theorem Planner.runHook_ok {α : Type} {path : Path} {x : Extension} {hook : Hook α}
    {s s' : PlanState} {a : α} (h : runHook path x hook s = .ok (a, s')) :
    ∃ n, hook s.fresh = .ok (a, n) ∧ s' = { s with fresh := n } := by
  unfold Planner.runHook at h
  split at h
  · rename_i b n hb
    cases h
    exact ⟨n, hb, rfl⟩
  · cases h
  · cases h

/-- The extensions of a described field arrange a base expression that was not materialized. -/
theorem Planner.arrange_ok (built : config.build = .ok c.schema)
    (hsite : site.fieldOf = fun owner name => (c.schema.field? owner name).map (·.toFieldDef))
    (hm : site.materialized = false) {t : Target} {fc : FieldConfig}
    (hx : t.field.extensions = fc.extensions) {base e : Expr} {item item' : Option Param}
    {s s' : PlanState} (hn : c.schema.fresh ≤ s.fresh) (hbase : base.Coherent)
    (h : preSelection t site base item s = .ok ((e, item'), s')) :
    item' = item ∧ s' = { s with fresh := s'.fresh } ∧
      ∃ a, fc.arrangement? site.arguments = some a ∧
        Arranged config s.fresh s'.fresh base a e := by
  unfold Planner.preSelection at h
  rw [hx] at h
  cases fc with
  | short ty =>
    cases h
    exact ⟨rfl, rfl, {}, rfl, .refl hbase⟩
  | full d =>
    have sorting : ∀ {r : Expr × Option Param} {s₁ : PlanState},
        ((d.sort.map Extension.sort).toList.foldlM (fun (acc : Expr × Option Param) x =>
          runHook t.path x (x.preSelection site acc.1 acc.2)) (base, item) s = .ok (r, s₁)) →
        r.2 = item ∧ s₁ = { s with fresh := s₁.fresh } ∧ ∃ order,
          (d.sort.map fun default => sortOrder? default site.arguments).getD (some []) = some order ∧
            Arranged config s.fresh s₁.fresh base { order := order } r.1 := by
      intro r s₁ hr
      cases hsort : d.sort with
      | none =>
        rw [hsort] at hr
        cases hr
        exact ⟨rfl, rfl, [], rfl, .refl hbase⟩
      | some default =>
        rw [hsort] at hr
        obtain ⟨r', s₂, hhook, hrest⟩ := run_bind_ok.mp hr
        cases hrest
        obtain ⟨n, hpre, rfl⟩ := runHook_ok hhook
        obtain ⟨hitem, order, horder, arranged⟩ := sort_ok built hsite hm hn hbase hpre
        exact ⟨hitem, rfl, order, horder, arranged⟩
    rw [FieldConfig.extensions, FieldDetail.extensions, List.foldlM_append] at h
    obtain ⟨⟨e₁, item₁⟩, s₁, hsort, hpage⟩ := run_bind_ok.mp h
    obtain ⟨hitem, hs₁, order, horder, arranged⟩ := sorting hsort
    dsimp only at hitem arranged
    subst hitem
    have found : ∀ skip take,
        (d.paging.map (·.slice? site.arguments)).getD (some (none, none)) = some (skip, take) →
          (FieldConfig.full d).arrangement? site.arguments = some ⟨order, skip, take⟩ := by
      intro skip take hslice
      unfold FieldConfig.arrangement?
      simp only [horder, hslice]
      rfl
    cases hpaging : d.paging with
    | none =>
      rw [hpaging] at hpage found
      cases hpage
      exact ⟨rfl, hs₁, _, found none none rfl, arranged⟩
    | some p =>
      rw [hpaging] at hpage found
      obtain ⟨r, s₂, hhook, hrest⟩ := run_bind_ok.mp hpage
      cases hrest
      obtain ⟨n, hpre, rfl⟩ := runHook_ok hhook
      obtain ⟨rfl, rfl, skip, take, hslice, rfl⟩ := paging_ok hm hpre
      exact ⟨rfl, by rw [hs₁], ⟨order, skip, take⟩, found skip take hslice,
        arranged.sliced skip take⟩

theorem FieldConfig.mem_extensions {fc : FieldConfig} {x : Extension} (h : x ∈ fc.extensions) :
    (∃ default, x = .sort default) ∨ ∃ m n, x = .paging m n := by
  cases fc with
  | short ty => cases h
  | full d =>
    rcases List.mem_append.mp h with h | h
    · obtain ⟨default, -, rfl⟩ := Option.map_eq_some_iff.mp (Option.mem_toList.mp h)
      exact .inl ⟨default, rfl⟩
    · obtain ⟨p, -, rfl⟩ := Option.map_eq_some_iff.mp (Option.mem_toList.mp h)
      exact .inr ⟨_, _, rfl⟩

theorem Planner.runHooks_eq {α : Type} {path : Path} {hook : Extension → α → Hook α}
    {xs : List Extension} (h : ∀ x ∈ xs, ∀ a, hook x a = pure a) (a : α) :
    xs.foldlM (fun acc x => runHook path x (hook x acc)) a = pure a := by
  induction xs with
  | nil => rfl
  | cons x xs ih =>
    have first : runHook path x (hook x a) = pure a := by
      rw [h x List.mem_cons_self]
      rfl
    rw [List.foldlM_cons, first, pure_bind, ih fun y hy => h y (List.mem_cons_of_mem _ hy)]

section Described

variable {t : Target} {fc : FieldConfig} (hx : t.field.extensions = fc.extensions)

include hx

/-- What was materialized stays as it is. -/
theorem Planner.keep_materialized (hm : site.materialized = true) (base : Expr)
    (item : Option Param) : preSelection t site base item = pure (base, item) := by
  refine runHooks_eq (fun x hmem acc => ?_) (base, item)
  rcases FieldConfig.mem_extensions (hx ▸ hmem) with ⟨default, rfl⟩ | ⟨m, n, rfl⟩
  · exact if_pos hm
  · exact if_pos hm

theorem Planner.selection_eq (base : Expr) (children : Children) (item : Option Param) :
    selection t site base children item = pure (base, children, item) := by
  refine runHooks_eq (fun x hmem acc => ?_) (base, children, item)
  rcases FieldConfig.mem_extensions (hx ▸ hmem) with ⟨default, rfl⟩ | ⟨m, n, rfl⟩ <;> rfl

theorem Planner.scalarExpression_eq (e : Expr) : scalarExpression t site e = pure e := by
  refine runHooks_eq (fun x hmem acc => ?_) e
  rcases FieldConfig.mem_extensions (hx ▸ hmem) with ⟨default, rfl⟩ | ⟨m, n, rfl⟩ <;> rfl

end Described

/-- The extensions of a field arrange its base expression, unless it was materialized. -/
theorem Planner.preSelection_ok (built : config.build = .ok c.schema) {frame : Frame} {t : Target}
    {fc : FieldConfig} (hx : t.field.extensions = fc.extensions) {item : Item} {base : Base}
    (hitem : item.arrangement = fc.arrangement? item.arguments) {s s' : PlanState}
    (hn : c.schema.fresh ≤ s.fresh)
    (based : Based c.schema.fresh frame s t.context item base) {e : Expr} {x x' : Option Param}
    (h : preSelection t (c.site t base frame) base.expr x s = .ok ((e, x'), s')) :
    x' = x ∧ s' = { s with fresh := s'.fresh } ∧
      ∃ a, (item.view frame t.context.ty).arrangement = some a ∧
        Arranged config s.fresh s'.fresh base.expr a e := by
  cases hm : base.materialized with
  | true =>
    have kept : (c.site t base frame).materialized = true := hm
    rw [Planner.keep_materialized hx kept] at h
    cases h
    refine ⟨rfl, rfl, {}, ?_, .refl based.coherent⟩
    rw [based.arrangement, hm]
    rfl
  | false =>
    have fields : (c.site t base frame).fieldOf =
      fun owner name => (c.schema.field? owner name).map (·.toFieldDef) := rfl
    obtain ⟨hx', hs', a, ha, arranged⟩ :=
      Planner.arrange_ok built fields hm hx hn based.coherent h
    refine ⟨hx', hs', a, ?_, arranged⟩
    rw [based.arrangement, hm, hitem, ← based.arguments]
    exact ha

end Extensions

end FieldPlan
