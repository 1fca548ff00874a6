import FieldPlan.Proofs.Expr.Swap
import FieldPlan.Proofs.Expr.Value
import FieldPlan.Proofs.Ty

/-!
# Expressions of records

The static type of an expression describes its value where the records in it are built by the
expression or read from parameters of record types.

* `Known`, `Expr.Typed` : the parameters whose types describe their values, and such expressions;
* `Expr.Typed.swap` : parameters of the same types put in place of parts;
* `Yields` : what holds of all results of a computation;
* `Env.Describes`, `Expr.Typed.yields` : the values of such an expression are described by its type.
-/

namespace FieldPlan

/-- The parameters whose types describe their values. -/
abbrev Known := Param → Prop

/-- One more parameter is bound to a value that its type describes. -/
def Known.bind (known : Known) (p : Param) : Known := fun q =>
  (q.id = p.id ∧ q.ty = p.ty) ∨ (q.id ≠ p.id ∧ known q)

theorem Known.bind_self (known : Known) (p : Param) : known.bind p p := .inl ⟨rfl, rfl⟩

theorem Known.bind_other {known : Known} {p q : Param} (h : known q) (hne : q.id ≠ p.id) :
    known.bind p q := .inr ⟨hne, h⟩

namespace Expr

/-- The type of the expression is made of the types of its parts wherever a record stands in it. -/
inductive Typed : Known → Expr → Prop
  | bare {known : Known} {e : Expr} : e.ty.hasRecord = false → Typed known e
  | param {known : Known} {p : Param} : known p → Typed known (.param p)
  | member {known : Known} {target : Expr} {name : String} {t : Ty} :
    Typed known target → target.ty.member? name = some t → Typed known (.member target name t)
  | guarded {known : Known} {test build : Expr} {t : Ty} :
    Typed known build → Typed known (.condition test (.null t) build)
  | arranged {known : Known} {f : Builtin} {list : Expr} {rest : List Expr} :
    f ≠ .count → Typed known list → Typed known (.builtin f (list :: rest))
  | record {known : Known} {name : String} {fields : List (String × Expr)} :
    (Dict.keys fields).Nodup → (∀ field ∈ fields, Typed known field.2) →
      Typed known (.record name fields)
  | select {known : Known} {source body : Expr} {x : Param} :
    Typed known source → source.ty.element? = some x.ty → Typed (known.bind x) body →
      Typed known (.select source x body)
  | letIn {known : Known} {value body : Expr} {p : Param} :
    Typed known value → value.ty = p.ty → Typed (known.bind p) body →
      Typed known (.letIn p value body)

variable {known known' : Known} {e : Expr}

theorem typed_nullGuarded {guard build : Expr} (h : Typed known build) :
    Typed known (.nullGuarded guard build) := .guarded h

/-- Only the parameters that occur need to be known. -/
theorem Typed.mono (h : Typed known e) (hk : ∀ q, q.id ∈ e.ids → known q → known' q) :
    Typed known' e := by
  have under : ∀ {known known' : Known} {e c : Expr} {x : Param}, c ∈ e.children →
      (∀ q, q.id ∈ e.ids → known q → known' q) →
        ∀ q, q.id ∈ c.ids → known.bind x q → known'.bind x q := by
    intro known known' e c x hc hk q hq h
    rcases h with h | ⟨hne, h⟩
    · exact .inl h
    · exact .inr ⟨hne, hk q (ids_of_child hc hq) h⟩
  induction h generalizing known' with
  | bare h => exact .bare h
  | @param _ p h =>
    apply Typed.param
    exact hk p (mem_ids.mpr ⟨_, self_mem_subterms _, p, rfl, rfl⟩) h
  | member _ hm ih => exact .member (ih fun q hq => hk q (ids_of_child (by simp [children]) hq)) hm
  | guarded _ ih => exact .guarded (ih fun q hq => hk q (ids_of_child (by simp [children]) hq))
  | arranged hf _ ih =>
    exact .arranged hf (ih fun q hq => hk q (ids_of_child (by simp [children]) hq))
  | record hn _ ih =>
    refine .record hn fun field hf => ih field hf fun q hq => hk q (ids_of_child ?_ hq)
    exact List.mem_map_of_mem hf
  | select _ he _ ihs ihb =>
    refine .select (ihs fun q hq => hk q (ids_of_child (by simp [children]) hq)) he (ihb ?_)
    exact under (by simp [children]) hk
  | letIn _ hv _ ihv ihb =>
    refine .letIn (ihv fun q hq => hk q (ids_of_child (by simp [children]) hq)) hv (ihb ?_)
    exact under (by simp [children]) hk

/-- Parameters of the same types put in place of parts; they are known, if they hold records. -/
theorem Typed.swap {f : Expr → Option Expr} (h : Typed known e) (he : e.Coherent)
    (renames : e.Renames f)
    (hf : ∀ x q, f x = some (.param q) → q.ty.hasRecord = true → known q ∧ q.id ∉ e.binders) :
    Typed known (e.swap f) := by
  have put : ∀ {known : Known} {e : Expr}, e.Renames f →
      (∀ x q, f x = some (.param q) → q.ty.hasRecord = true → known q ∧ q.id ∉ e.binders) →
        (f e = none → Typed known (e.mapParts (Expr.swap f))) → Typed known (e.swap f) := by
    intro known e renames hf hnone
    cases hr : f e with
    | none =>
      rw [swap_none hr]
      exact hnone hr
    | some r =>
      rw [swap_some hr]
      obtain ⟨⟨q, rfl⟩, -⟩ := renames e (self_mem_subterms e) r hr
      cases hq : q.ty.hasRecord with
      | false => exact .bare hq
      | true => exact .param (hf e q hr hq).1
  have below : ∀ {known : Known} {e c : Expr}, c ∈ e.children →
      (∀ x q, f x = some (.param q) → q.ty.hasRecord = true → known q ∧ q.id ∉ e.binders) →
        ∀ x q, f x = some (.param q) → q.ty.hasRecord = true → known q ∧ q.id ∉ c.binders := by
    intro known e c hc hf x q hx hq
    obtain ⟨hknown, hb⟩ := hf x q hx hq
    exact ⟨hknown, fun h => hb (mem_binders_iff.mpr (.inr ⟨c, hc, h⟩))⟩
  have inside : ∀ {known : Known} {e c : Expr} {p : Param}, c ∈ e.children → e.bound? = some p →
      (∀ x q, f x = some (.param q) → q.ty.hasRecord = true → known q ∧ q.id ∉ e.binders) →
        ∀ x q, f x = some (.param q) → q.ty.hasRecord = true →
          known.bind p q ∧ q.id ∉ c.binders := by
    intro known e c p hc hp hf x q hx hq
    obtain ⟨hknown, hb⟩ := hf x q hx hq
    refine ⟨Known.bind_other hknown fun hid => ?_, (below hc hf x q hx hq).2⟩
    exact hb (mem_binders_iff.mpr (.inl ⟨p, hp, hid.symm⟩))
  induction h with
  | bare h => exact .bare ((renames.ty_swap he).symm ▸ h)
  | param h => exact put renames hf fun _ => .param h
  | @member _ target name t _ hm ih =>
    have hc : target ∈ (Expr.member target name t).children := List.mem_singleton.mpr rfl
    refine put renames hf fun _ => ?_
    have ty : (target.swap f).ty = target.ty := (renames.child hc).ty_swap (he.child hc)
    rw [mapParts, ty, hm]
    exact .member (ih (he.child hc) (renames.child hc) (below hc hf)) (ty.symm ▸ hm)
  | @guarded _ test build t _ ih =>
    have hc : build ∈ (Expr.condition test (.null t) build).children := by simp [children]
    refine put renames hf fun _ => ?_
    -- a null literal is no place for a parameter
    have literal : (Expr.null t).swap f = .null t := by
      refine swap_leaf rfl ?_
      cases hr : f (.null t) with
      | none => rfl
      | some r =>
        obtain ⟨⟨q, rfl⟩, -, same, -⟩ := renames (.null t)
          (mem_subterms_of_child (by simp [children]) (self_mem_subterms _)) r hr
        cases same
    rw [mapParts, literal]
    exact .guarded (ih (he.child hc) (renames.child hc) (below hc hf))
  | @arranged _ function list rest hcount _ ih =>
    have hc : list ∈ (Expr.builtin function (list :: rest)).children := List.mem_cons_self
    refine put renames hf fun _ => ?_
    exact .arranged hcount (ih (he.child hc) (renames.child hc) (below hc hf))
  | @record _ name fields hn _ ih =>
    refine put renames hf fun _ => ?_
    rw [mapParts]
    have keys : Dict.keys (fields.map fun field => (field.1, field.2.swap f)) = Dict.keys fields := by
      simp [Dict.keys, Function.comp_def]
    refine .record (keys.symm ▸ hn) fun field hfield => ?_
    obtain ⟨before, hbefore, rfl⟩ := List.mem_map.mp hfield
    have hc : before.2 ∈ (Expr.record name fields).children := List.mem_map_of_mem hbefore
    exact ih before hbefore (he.child hc) (renames.child hc) (below hc hf)
  | @select _ source body x _ hx _ ihs ihb =>
    have hs : source ∈ (Expr.select source x body).children := by simp [children]
    have hb : body ∈ (Expr.select source x body).children := by simp [children]
    refine put renames hf fun _ => ?_
    refine .select (ihs (he.child hs) (renames.child hs) (below hs hf)) ?_
      (ihb (he.child hb) (renames.child hb) (inside hb rfl hf))
    rw [(renames.child hs).ty_swap (he.child hs)]
    exact hx
  | @letIn _ value body p _ hv _ ihv ihb =>
    have hs : value ∈ (Expr.letIn p value body).children := by simp [children]
    have hb : body ∈ (Expr.letIn p value body).children := by simp [children]
    refine put renames hf fun _ => ?_
    refine .letIn (ihv (he.child hs) (renames.child hs) (below hs hf)) ?_
      (ihb (he.child hb) (renames.child hb) (inside hb rfl hf))
    rw [(renames.child hs).ty_swap (he.child hs)]
    exact hv

end Expr

/-! ## Results -/

section Yields

variable {σ α β : Type}

/-- What holds of the result of a computation, if there is one. -/
def Yields (P : α → Prop) (x : Exec σ α) : Prop := ∀ state a next, x state = (.ok a, next) → P a

namespace Yields

variable {P : α → Prop} {Q : β → Prop}

theorem pure {a : α} (h : P a) : Yields P (Pure.pure a : Exec σ α) := by
  intro state b next hb
  cases hb
  exact h

theorem throw (e : ExecError) : Yields P (MonadExcept.throw e : Exec σ α) := by
  intro state a next h
  cases h

theorem of_forall (h : ∀ a, P a) (x : Exec σ α) : Yields P x := fun _ a _ _ => h a

theorem bind {x : Exec σ α} {k : α → Exec σ β} (hx : Yields P x) (hk : ∀ a, P a → Yields Q (k a)) :
    Yields Q (x >>= k) := by
  intro state b next h
  rw [exec_bind] at h
  split at h
  · rename_i a mid hmid
    exact hk a (hx state a mid hmid) mid b next h
  · cases h

theorem mapM {f : α → Exec σ β} {as : List α} (h : ∀ a ∈ as, Yields Q (f a)) :
    Yields (fun bs => ∀ b ∈ bs, Q b) (as.mapM f) := by
  induction as with
  | nil => exact pure (by simp)
  | cons a as ih =>
    obtain ⟨hfirst, hrest⟩ := List.forall_mem_cons.mp h
    rw [List.mapM_cons]
    refine bind hfirst fun b hb => bind (ih hrest) fun bs hbs => pure ?_
    exact List.forall_mem_cons.mpr ⟨hb, hbs⟩

theorem mapM_length (f : α → Exec σ β) (as : List α) :
    Yields (fun bs => bs.length = as.length) (as.mapM f) := by
  induction as with
  | nil => exact pure rfl
  | cons a as ih =>
    rw [List.mapM_cons]
    refine bind (of_forall (P := fun _ => True) (fun _ => trivial) _) fun b _ => ?_
    exact bind ih fun bs hbs => pure (congrArg (· + 1) hbs)

/-- What every step of a fold keeps holds at its end. -/
theorem foldlM {f : β → α → Exec σ β} {as : List α} {b : β} (hb : Q b)
    (h : ∀ b, ∀ a ∈ as, Q b → Yields Q (f b a)) : Yields Q (as.foldlM f b) := by
  induction as generalizing b with
  | nil => exact pure hb
  | cons a as ih =>
    rw [List.foldlM_cons]
    refine bind (h b a List.mem_cons_self hb) fun b' hb' => ih hb' fun b a ha => ?_
    exact h b a (List.mem_cons_of_mem _ ha)

end Yields

/-- Sorting keeps the items of an array. -/
theorem sortBy_yields (keys : List (SortKey σ)) {t : Ty} {v : Json} (h : t.Describes v) :
    Yields t.Describes (sortBy keys v) := by
  cases v with
  | null => exact .pure t.describes_null
  | arr items =>
    have keyed : Yields (fun (pairs : List (List Json × Json)) => ∀ pair ∈ pairs, pair.2 ∈ items)
        (items.mapM fun item => do
          let values ← keyValues keys item
          pure (values, item) : Exec σ _) := by
      apply Yields.mapM
      intro item hitem
      exact .bind (P := fun _ => True) (.of_forall (fun _ => trivial) _) fun values _ => .pure hitem
    refine .bind keyed fun pairs hpairs => .pure (h.of_subset fun item hitem => ?_)
    obtain ⟨pair, hpair, rfl⟩ := List.mem_map.mp hitem
    exact hpairs pair (List.mem_mergeSort.mp hpair)
  | _ => exact .throw _

theorem sorted_yields (keys : List (SortKey σ)) {t : Ty} {source : Exec σ Json}
    (h : Yields t.Describes source) : Yields t.Describes (sorted keys source) := by
  refine .bind h fun v hv => ?_
  cases keys with
  | nil => exact .pure hv
  | cons key keys => exact sortBy_yields (key :: keys) hv

theorem slice_yields (function : Builtin) {t : Ty} {items : List Json} (h : t.Describes (.arr items))
    (count : Json) : Yields t.Describes (slice (σ := σ) function items count) := by
  unfold slice
  split
  · apply Yields.pure
    apply h.of_subset
    intro item hitem
    split at hitem
    · exact List.mem_of_mem_drop hitem
    · exact List.mem_of_mem_take hitem
  · exact .throw _

/-- A member of a record is what the type of the record says. -/
theorem readMember_yields {t u : Ty} {name : String} (hu : t.member? name = some u) {v : Json}
    (h : t.Describes v) : Yields u.Describes (readMember (σ := σ) name v) := by
  have record : t.hasRecord = true := by
    cases hr : t.hasRecord with
    | true => rfl
    | false => cases (Ty.member?_of_bare hr name).symm.trans hu
  cases v with
  | null => exact .pure u.describes_null
  | obj members =>
    apply Yields.pure
    have related := h.find? record name
    rw [hu] at related
    generalize Dict.find? members name = found at related
    cases related with
    | some hw => exact hw
  | _ => exact .throw _

end Yields

/-! ## Evaluation -/

section Evaluation

variable {σ : Type} {services : Services σ} {known : Known} {env : Env σ}

def Env.Describes (env : Env σ) (known : Known) : Prop :=
  ∀ p, known p → ∀ v, env.scope.value p = some v → p.ty.Describes v

theorem Env.Describes.bind (h : env.Describes known) {p : Param} {v : Json} (hv : p.ty.Describes v) :
    (env.bind p v).Describes (known.bind p) := by
  intro q hq w hw
  rw [Env.scope_bind, Scope.value, Scope.bind] at hw
  rcases hq with ⟨hid, hty⟩ | ⟨hne, hq⟩
  · rw [if_pos hid] at hw
    cases hw
    exact hty ▸ hv
  · rw [if_neg hne] at hw
    exact h q hq w hw

theorem Env.Describes.value (h : env.Describes known) {p : Param} (hp : known p) :
    Yields p.ty.Describes (env.value p) := by
  have computed := Env.value_computes env p
  cases hv : env.scope.value p with
  | none =>
    rw [hv] at computed
    intro state v next hrun
    obtain ⟨e, he⟩ := computed state
    cases he.symm.trans hrun
  | some v =>
    rw [hv] at computed
    rw [computed.eq_pure]
    exact .pure (h p hp v hv)

theorem evalFields_yields {fields : List (String × Expr)}
    (h : ∀ field ∈ fields, Yields field.2.ty.Describes (field.2.evalUnder services env [])) :
    Yields (Ty.DescribesAll (Expr.fieldTys fields)) (Expr.evalFields services fields env) := by
  induction fields with
  | nil => exact .pure rfl
  | cons field fields ih =>
    obtain ⟨hfirst, hrest⟩ := List.forall_mem_cons.mp h
    rw [Expr.evalFields]
    exact .bind hfirst fun v hv => .bind (ih hrest) fun vs hvs => .pure ⟨v, vs, rfl, hv, hvs⟩

theorem Ty.DescribesAll.keys_eq {fields : List (String × Expr)} {members : Dict Json}
    (h : DescribesAll (Expr.fieldTys fields) members) : members.keys = Dict.keys fields := by
  induction fields generalizing members with
  | nil =>
    cases h
    rfl
  | cons field fields ih =>
    obtain ⟨v, rest, rfl, -, hrest⟩ := h
    show field.1 :: Dict.keys rest = field.1 :: Dict.keys fields
    rw [ih hrest]

/-- The value of an expression, sorted or not, is described by its type. -/
theorem Expr.Typed.yields {e : Expr} (h : e.Typed known) (he : env.Describes known)
    (keys : List (SortKey σ)) : Yields e.ty.Describes (e.evalUnder services env keys) := by
  induction h generalizing env keys with
  | bare h => exact .of_forall (Ty.describes_of_bare h) _
  | param h => exact sorted_yields keys (he.value h)
  | member _ hm ih => exact sorted_yields keys (.bind (ih he []) fun v hv => readMember_yields hm hv)
  | @guarded _ test build t _ ih =>
    have ty : ∀ v, (Expr.condition test (.null t) build).ty.Describes v ↔ build.ty.Describes v :=
      fun v => Ty.describes_withNullable
    refine sorted_yields keys (.bind (P := fun _ => True) (.of_forall (fun _ => trivial) _) ?_)
    intro v _
    rcases v with _ | (_ | _) | _ | _ | _ | _ | _
    case bool.true => exact sorted_yields [] (.pure (Ty.describes_null _))
    case bool.false =>
      intro state w next hw
      exact (ty w).mpr (ih he [] state w next hw)
    all_goals exact .throw _
  | @arranged _ f list rest hf _ ih =>
    cases f with
    | count => exact absurd rfl hf
    | skip | take =>
      refine sorted_yields keys (.bind (ih he []) fun v hv => ?_)
      cases v with
      | null => exact .pure (Ty.describes_null _)
      | arr items =>
        exact .bind (P := fun _ => True) (.of_forall (fun _ => trivial) _) fun count _ =>
          slice_yields _ hv count
      | _ => exact .throw _
    | orderBy d =>
      cases rest with
      | nil => exact .throw _
      | cons key _ => exact .bind (ih he []) fun v hv => sortBy_yields _ hv
    | thenBy d =>
      cases rest with
      | nil => exact .throw _
      | cons key _ => exact ih he _
  | @record _ name fields hn _ ih =>
    refine sorted_yields keys (.bind (evalFields_yields fun field hf => ih field hf he []) ?_)
    intro members hm
    rw [Dict.ofList_of_nodup (hm.keys_eq.symm ▸ hn)]
    exact .pure (.inr ⟨members, rfl, hm⟩)
  | @select _ source body x _ hx _ ihs ihb =>
    refine sorted_yields keys (.bind (ihs he []) fun v hv => ?_)
    cases v with
    | null => exact .pure (Ty.describes_null _)
    | arr items =>
      have each : ∀ item ∈ items, Yields body.ty.Describes
          (body.evalUnder services (env.bind x item) []) := fun item hitem =>
        ihb (he.bind (hv.item hx item hitem)) []
      exact .bind (Yields.mapM each) fun results hresults => .pure (Ty.describes_arr hresults)
    | _ => exact .throw _
  | @letIn _ value body p _ hty _ ihv ihb =>
    refine sorted_yields keys (.bind (ihv he []) fun v hv => ?_)
    exact ihb (he.bind (hty ▸ hv)) []

end Evaluation

end FieldPlan
