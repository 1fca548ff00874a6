import FieldPlan.Proofs.Planning.Own
import FieldPlan.Proofs.Wanted.Evaluated

/-!
# What renderings mean

* `PlanState.Means` : the scopes in which parameters mean what a plan binds them to;
* `Reads.value_eq` : the value of a field over a context is its value on the value of the context;
* `Renders.value_eq` : a rendering has the value of what it renders.
-/

namespace FieldPlan

def Binding.meaning : Binding → Meaning
  | .value v => .value v
  | .service name => .service name

/-- The parameters that a plan binds mean what it binds them to. -/
def PlanState.Means (final : PlanState) (ρ : Scope) : Prop :=
  ∀ b ∈ final.bindings, ρ b.1.id = some b.2.meaning

section Meaning

variable {config : SchemaConfig} {answers : Answers} {final : PlanState} {ρ : Scope}

theorem PlanState.Means.bind (h : final.Means ρ) {p : Param} (hp : p.id ∉ final.boundIds)
    (v : Json) : final.Means (ρ.bind p v) := by
  intro b hb
  have hne : b.1.id ≠ p.id := fun he => hp (he ▸ List.mem_map_of_mem hb)
  simpa [Scope.bind, hne] using h b hb

/-! ## Fields themselves -/

namespace Expr

theorem Chain.value_eq {context e : Expr} {path : List String} (h : context.Chain path e) {v : Json}
    (hv : context.value answers ρ = some v) : e.value answers ρ = v.readPath path := by
  induction h with
  | nil => exact hv
  | snoc name t _ _ ih =>
    rw [value_member, ih]
    simp [Json.readPath, List.foldlM_append]

theorem Input.value_eq {context e : Expr} {arguments : Dict Json} {a : ServiceArg}
    (h : Input (final.Records arguments) context a e) (hρ : final.Means ρ) {v : Json}
    (hv : context.value answers ρ = some v) : e.value answers ρ = a.value arguments v := by
  cases h with
  | member h => exact h.value_eq hv
  | @argument p name hp =>
    have hb : ρ.value p = some (.obj arguments) := by
      unfold Scope.value
      rw [hρ _ hp.1]
      rfl
    rw [value_member, value_param, hb]
    rfl
  | constant v t => exact value_constant v t

theorem Own.value_eq {context e : Expr} {arguments : Dict Json} {source : Resolve}
    (h : Own (final.Records arguments) context source e) (hρ : final.Means ρ) {v : Json}
    (hv : context.value answers ρ = some v) :
    e.value answers ρ = source.value answers arguments v := by
  cases h with
  | member h => exact h.value_eq hv
  | @service name method t args es h =>
    have hall : valueList answers es ρ = args.mapM (·.value arguments v) := by
      induction h with
      | nil => rfl
      | @cons a e _ _ ha _ ih =>
        have ha : e.value answers ρ = a.value arguments v := ha.value_eq hρ hv
        simp only [Expr.value] at ha
        simp [valueList, List.mapM_cons, ha, ih]
    rw [value_call, hall]
    rfl
  | constant v t => exact value_constant v t

theorem KeyOwn.keyValue_eq {x : Param} {source : Resolve} {key : Expr} (h : KeyOwn x source key)
    (item : Json) :
    (Expr.lambda x key).keyValue answers ρ item = source.value answers [] item := by
  show key.value answers (ρ.bind x item) = _
  cases h with
  | member h => exact h.value_eq (by simp)
  | constant v t => exact value_constant v t

/-- A list sorted further is sorted by the further keys as well. -/
theorem Sorted.further_value_eq {entity : String} {element : Ty}
    {order : List (String × Direction)} {list sorted : Expr}
    (h : Sorted config entity element false order list sorted) {source : Option Json}
    {keys : List ItemKey}
    (hl : ∀ more, list.valueUnder answers ρ more = source.bind (·.sortBy (keys ++ more))) :
    ∃ rest, order.mapM (config.itemKey answers entity) = some rest ∧
      sorted.value answers ρ = source.bind (·.sortBy (keys ++ rest)) := by
  generalize hfirst : false = first at h
  induction h generalizing keys with
  | nil => exact ⟨[], rfl, by simpa [Expr.value] using hl []⟩
  | @cons _ name d order list key sorted x own found _ hkey _ ih =>
    subst hfirst
    have hitem : (Expr.lambda x key).keyValue answers ρ = fun item => own.value answers [] item :=
      funext hkey.keyValue_eq
    have further : ∀ more,
        (Expr.builtin (keyFunction false d) [list, .lambda x key]).valueUnder answers ρ more =
          source.bind (·.sortBy ((keys ++ [⟨d, fun item => own.value answers [] item⟩]) ++ more)) := by
      intro more
      simp only [keyFunction, Bool.false_eq_true, if_false, valueUnder, hitem, hl]
      simp
    obtain ⟨rest, hrest, hv⟩ := ih further rfl
    refine ⟨⟨d, fun item => own.value answers [] item⟩ :: rest, ?_, by simpa using hv⟩
    rw [List.mapM_cons, hrest]
    simp [SchemaConfig.itemKey, found]

theorem Sorted.value_eq {entity : String} {element : Ty} {order : List (String × Direction)}
    {base sorted : Expr} (h : Sorted config entity element true order base sorted)
    (ho : order ≠ []) :
    ∃ keys, order.mapM (config.itemKey answers entity) = some keys ∧
      sorted.value answers ρ = (base.value answers ρ).bind (·.sortBy keys) := by
  cases h with
  | nil => exact absurd rfl ho
  | @cons _ name d order _ key _ x own found _ hkey hrest =>
    have hitem : (Expr.lambda x key).keyValue answers ρ = fun item => own.value answers [] item :=
      funext hkey.keyValue_eq
    have first : ∀ more,
        (Expr.builtin (keyFunction true d) [base, .lambda x key]).valueUnder answers ρ more =
          (base.value answers ρ).bind
            (·.sortBy ([⟨d, fun item => own.value answers [] item⟩] ++ more)) := by
      intro more
      simp only [keyFunction, if_true, valueUnder, hitem]
      rfl
    obtain ⟨rest, hr, hv⟩ := hrest.further_value_eq first
    refine ⟨⟨d, fun item => own.value answers [] item⟩ :: rest, ?_, by simpa using hv⟩
    rw [List.mapM_cons, hr]
    simp [SchemaConfig.itemKey, found]

end Expr

open Extension.Paging (addSkip addTake countExpr)

theorem addSkip_value_eq (e : Expr) (n : Option Nat) :
    (addSkip e n).value answers ρ = (e.value answers ρ).bind (·.skipItems n) := by
  match n with
  | none | some 0 => exact (Option.bind_fun_some _).symm
  | some (n + 1) =>
    rw [addSkip, countExpr, Expr.value_slice _ (.inl rfl)]
    rfl

theorem addTake_value_eq (e : Expr) (n : Option Nat) :
    (addTake e n).value answers ρ = (e.value answers ρ).bind (·.takeItems n) := by
  match n with
  | none => exact (Option.bind_fun_some _).symm
  | some n =>
    rw [addTake, countExpr, Expr.value_slice _ (.inr rfl)]
    rfl

theorem Arranges.value_eq {base e : Expr} {a : Arrangement} (h : Arranges config base a e) :
    e.value answers ρ =
      (base.value answers ρ).bind (a.value config answers base.ty.elementEntity) := by
  cases h with
  | plain ho =>
    rw [addTake_value_eq, addSkip_value_eq]
    unfold Arrangement.value Json.sortByFields
    simp [ho, Option.bind_assoc]
  | @sorted element entity list ho hel hen hs =>
    obtain ⟨keys, hkeys, hv⟩ : ∃ keys, a.order.mapM (config.itemKey answers entity) = some keys ∧
        list.value answers ρ = (base.value answers ρ).bind (·.sortBy keys) := hs.value_eq ho
    rw [addTake_value_eq, addSkip_value_eq, hv]
    unfold Arrangement.value Json.sortByFields Ty.elementEntity
    simp [ho, hel, hen, hkeys, Option.bind_assoc]

/-- The value of a field over a context is its value on the value of the context. -/
theorem Reads.value_eq {context base e : Expr} {item : Item}
    (h : Reads config final context item base e) (hρ : final.Means ρ) {v : Json}
    (hv : context.value answers ρ = some v) :
    e.value answers ρ = item.value config answers v := by
  obtain ⟨a, ha, harr⟩ := h.arranged
  rw [harr.value_eq, h.own.value_eq hρ hv, h.ty]
  unfold Item.value
  simp [ha]

/-! ## Bound forms -/

/-- The parameters of services stand for what the handles denote. -/
theorem PlanState.value_bound (good : final.Good) {e : Expr}
    (apart : ∀ i ∈ e.binders, i ∉ final.boundIds) (hρ : final.Means ρ) :
    (final.bound e).value answers ρ = e.value answers ρ := by
  have same : e.Translates answers final.handle fun ρ ρ' => ρ' = ρ ∧ final.Means ρ := by
    constructor
    · rintro ρ ρ' ⟨rfl, hρ⟩ x hx p hp v
      exact ⟨rfl, hρ.bind (apart _ (Expr.mem_binders.mpr ⟨x, hx, p, hp, rfl⟩)) v⟩
    · rintro ρ ρ' ⟨rfl, -⟩ p _ _
      rfl
    · rintro ρ ρ' ⟨rfl, hρ⟩ x _ r hr
      cases x with
      | service name =>
        simp only [handle, Option.map_eq_some_iff] at hr
        obtain ⟨p, hp, rfl⟩ := hr
        have hm : ρ' p.id = some (.service name) := hρ _ (good.params name p hp).1
        exact ⟨fun keys => by simp [Expr.valueUnder, Scope.value, hm],
          by simp [Scope.receiver, hm]⟩
      | _ => cases hr
    · intro x _ r hr
      cases x with
      | service name =>
        simp only [handle, Option.map_eq_some_iff] at hr
        obtain ⟨p, -, rfl⟩ := hr
        exact ⟨rfl, rfl⟩
      | _ => cases hr
  exact same.value_swap ⟨rfl, hρ⟩

namespace Expr

theorem Source.bound {e : Expr} (h : e.Source) : (final.bound e).Source := by
  unfold PlanState.bound
  induction h with
  | param p => exact .param p
  | constant v t => exact .constant v t
  | member name t _ ih =>
    rw [swap_none rfl]
    exact .member name _ ih
  | slice f n t hf _ ih =>
    rw [swap_none rfl]
    exact .slice f n t hf ih
  | @call r args method t hr _ ih =>
    rw [swap_none rfl]
    refine .call method t ?_ fun a ha => ?_
    · rcases hr with ⟨s, rfl⟩ | ⟨p, rfl⟩
      · rw [swap_eq, PlanState.handle]
        cases final.serviceParams.find? s with
        | none => exact .inl ⟨s, rfl⟩
        | some p => exact .inr ⟨p, rfl⟩
      · exact .inr ⟨p, rfl⟩
    · obtain ⟨b, hb, rfl⟩ := List.mem_map.mp ha
      exact ih b hb

theorem Called.bound {e : Expr} (h : e.Called) : (final.bound e).Called := by
  unfold PlanState.bound
  induction h with
  | call r method args t =>
    rw [swap_none rfl]
    exact .call _ _ _ _
  | member name t _ ih =>
    rw [swap_none rfl]
    exact .member name _ ih
  | slice f n t hf _ ih =>
    rw [swap_none rfl]
    exact .slice f n t hf ih

theorem Called.lambda_of_eqv {u u' : Expr} (hc : u.Called) (h : eqv u u' = true) :
    u'.lambda? = none := by
  cases hc <;> cases u' <;> simp [eqv] at h <;> rfl

/-- What equals a source that starts with a call is worth the value of the source, under sort keys
too, and is no receiver. -/
theorem Called.param_like (respect : answers.Respect) {u u' : Expr} (hs : u.Source) (hc : u.Called)
    (h : eqv u u' = true) {v : Json} (hv : u.value answers ρ = some v) (p : Param) :
    (∀ keys, (Expr.param p).valueUnder answers (ρ.bind p v) keys = u'.valueUnder answers ρ keys) ∧
      (ρ.bind p v).receiver (.param p) = ρ.receiver u' := by
  have hv' := hc.value_of_eqv respect hs h hv
  have front : (∀ keys, u'.valueUnder answers ρ keys = sortValue keys (u'.value answers ρ)) ∧
      ρ.receiver u' = none := by
    cases hc with
    | slice f n t hf =>
      obtain ⟨list', rfl, -⟩ := eqv_slice h
      refine ⟨fun keys => ?_, rfl⟩
      rcases hf with rfl | rfl <;> simp only [value, valueUnder, sortValue_nil]
    | _ =>
      cases u' <;> simp [eqv] at h
      exact ⟨fun keys => by simp only [value, valueUnder, sortValue_nil], rfl⟩
  refine ⟨fun keys => ?_, ?_⟩
  · rw [front.1, hv']
    simp [valueUnder]
  · rw [front.2]
    simp [Scope.receiver, Scope.bind]

end Expr

/-! ## Wrapping -/

theorem rewrap_some {e x r : Expr} {p : Param} (h : rewrap final e p x = some r) :
    r = .param p ∧ (Expr.eqv e x = true ∨ Expr.eqv (final.bound e) x = true) := by
  unfold rewrap Rule.pick at h
  simp only [List.find?_cons, List.find?_nil] at h
  split at h
  · cases h
    exact ⟨rfl, .inl ‹_›⟩
  · split at h
    · cases h
      exact ⟨rfl, .inr ‹_›⟩
    · cases h

/-- Scopes before and after a parameter was bound to the value of a base expression. -/
def PlanState.Rebinds (final : PlanState) (answers : Answers) (e : Expr) (p : Param)
    (ρ ρ' : Scope) : Prop :=
  e.Source ∧ final.Means ρ ∧ ∃ v, e.value answers ρ = some v ∧ ρ' = ρ.bind p v

/-- What was rendered over a base expression means the same over the parameter that the value of the
base expression is bound to. -/
theorem rewrap_translates (respect : answers.Respect) (good : final.Good) {e field : Expr} {p : Param}
    (hc : e.Called) (he : e.Coherent)
    (hbinders : e.Source → ∀ i ∈ field.binders, i ∉ e.ids ∧ i ∉ final.boundIds)
    (hp : p.id ∉ field.ids) :
    field.Translates answers (rewrap final e p) (final.Rebinds answers e p) := by
  constructor
  · rintro ρ ρ' ⟨hs, hρ, v, hv, rfl⟩ x hx q hq w
    have hm : q.id ∈ field.binders := Expr.mem_binders.mpr ⟨x, hx, q, hq, rfl⟩
    obtain ⟨hqe, hqb⟩ := hbinders hs _ hm
    have hne : q.id ≠ p.id := fun h => hp (h ▸ Expr.ids_of_binders hm)
    refine ⟨hs, hρ.bind hqb w, v, ?_, ?_⟩
    · rw [← hv]
      refine Expr.value_congr he fun i hi => ?_
      have hi : i ≠ q.id := fun h => hqe (h ▸ hi)
      simp [Scope.bind, hi]
    · funext i
      unfold Scope.bind
      by_cases hi : i = q.id
      · subst hi
        simp [hne]
      · simp [hi]
  · rintro ρ ρ' ⟨-, -, v, -, rfl⟩ q hq -
    have hne : q.id ≠ p.id := fun h => hp (h ▸ Expr.mem_ids.mpr ⟨_, hq, q, rfl, rfl⟩)
    simp [Scope.bind, hne]
  · rintro ρ ρ' ⟨hs, hρ, v, hv, rfl⟩ x _ r hr
    obtain ⟨rfl, hx⟩ := rewrap_some hr
    rcases hx with hx | hx
    · exact hc.param_like respect hs hx hv p
    · have hb : (final.bound e).value answers ρ = some v := by
        rw [PlanState.value_bound good (fun i hi => ?_) hρ, hv]
        obtain ⟨y, hy, q, hq, -⟩ := Expr.mem_binders.mp hi
        rw [hs.binders y hy] at hq
        cases hq
      exact hc.bound.param_like respect hs.bound hx hb p
  · intro x _ r hr
    obtain ⟨rfl, hx | hx⟩ := rewrap_some hr
    · exact ⟨hc.lambda_of_eqv hx, rfl⟩
    · exact ⟨hc.bound.lambda_of_eqv hx, rfl⟩

/-! ## Where services are called -/

namespace Expr

theorem KeyOwn.services {x : Param} {source : Resolve} {key : Expr} (h : KeyOwn x source key) :
    key.services = [] := by
  rw [services_eq_nil]
  cases h with
  | member h => exact fun hs => not_served_param x (h.served_iff.mp hs)
  | constant =>
    rw [Expr.served_iff]
    simp [children]

theorem Sorted.mem_services {entity : String} {element : Ty} {first : Bool}
    {order : List (String × Direction)} {base sorted : Expr}
    (h : Sorted config entity element first order base sorted) {name : ServiceName} :
    name ∈ sorted.services ↔ name ∈ base.services := by
  induction h with
  | nil => rfl
  | @cons _ _ _ _ _ key _ x _ _ _ hkey _ ih =>
    have hlambda : name ∉ (Expr.lambda x key).services := by
      rw [mem_services_iff]
      simp [children, hkey.services]
    rw [ih, mem_services_iff]
    simp [children, hlambda]

theorem Own.served {Record : Param → Prop} {context e : Expr} {item : Item} {called : Bool}
    (h : Own Record context item.source e) (hc : called = true ↔ context.Served) :
    item.called called = true ↔ e.Served := by
  unfold Item.called
  generalize item.source = source at h
  cases h with
  | member h => rw [h.served_iff]; exact hc
  | service name method t _ =>
    simp only [true_iff]
    exact ⟨name, mem_subterms_of_child List.mem_cons_self (self_mem_subterms _)⟩
  | constant =>
    rw [Expr.served_iff]
    simp [children]

end Expr

section Slices

variable {e : Expr} {name : ServiceName}

theorem mem_services_slice {f : Builtin} {n : Nat} :
    name ∈ (Expr.builtin f [e, countExpr n]).services ↔ name ∈ e.services := by
  have hcount : name ∉ (countExpr n).services := by
    rw [Expr.mem_services_iff]
    simp [countExpr, Expr.children]
  rw [Expr.mem_services_iff]
  simp [Expr.children, hcount]

theorem mem_services_addSkip {n : Option Nat} :
    name ∈ (addSkip e n).services ↔ name ∈ e.services := by
  match n with
  | none | some 0 => rfl
  | some (n + 1) => exact mem_services_slice

theorem mem_services_addTake {n : Option Nat} :
    name ∈ (addTake e n).services ↔ name ∈ e.services := by
  match n with
  | none => rfl
  | some n => exact mem_services_slice

end Slices

/-- Arranging a value calls no service. -/
theorem Arranges.mem_services {base e : Expr} {a : Arrangement} (h : Arranges config base a e)
    {name : ServiceName} : name ∈ e.services ↔ name ∈ base.services := by
  cases h with
  | plain => rw [mem_services_addTake, mem_services_addSkip]
  | sorted _ _ _ hs => rw [mem_services_addTake, mem_services_addSkip, hs.mem_services]

theorem Arranges.served_iff {base e : Expr} {a : Arrangement} (h : Arranges config base a e) :
    e.Served ↔ base.Served := Expr.served_congr fun _ => h.mem_services

/-- A value comes from a service where the expression of the value calls one. -/
theorem Reads.called_iff {context base e : Expr} {item : Item} {called : Bool}
    (h : Reads config final context item base e) (hc : called = true ↔ context.Served) :
    item.called called = true ↔ e.Served := by
  obtain ⟨a, -, harr⟩ := h.arranged
  rw [harr.served_iff]
  exact h.own.served hc

/-! ## Sources -/

theorem Expr.Chain.source {context e : Expr} {path : List String} (h : context.Chain path e)
    (hc : context.Source) : e.Source := by
  induction h with
  | nil => exact hc
  | snoc name t _ _ ih => exact .member name t ih

theorem Expr.Own.source {Record : Param → Prop} {context e : Expr} {source : Resolve}
    (h : Own Record context source e) (hc : context.Source) : e.Source := by
  cases h with
  | member h => exact h.source hc
  | @service name method t args es h =>
    refine .call method t (.inl ⟨name, rfl⟩) fun e he => ?_
    induction h with
    | nil => cases he
    | cons ha _ ih =>
      rcases List.mem_cons.mp he with rfl | he
      · cases ha with
        | member h => exact h.source hc
        | argument => exact .member _ _ (.param _)
        | constant => exact .constant _ _
      · exact ih he
  | constant v t => exact .constant v t

theorem source_addSkip {e : Expr} (h : e.Source) (n : Option Nat) : (addSkip e n).Source := by
  match n with
  | none | some 0 => exact h
  | some (n + 1) => exact .slice _ _ _ (.inl rfl) h

theorem source_addTake {e : Expr} (h : e.Source) (n : Option Nat) : (addTake e n).Source := by
  match n with
  | none => exact h
  | some n => exact .slice _ _ _ (.inr rfl) h

/-- The value of a field that is no list is read from a source. -/
theorem Reads.source {context base e : Expr} {item : Item}
    (h : Reads config final context item base e) (hc : context.Source)
    (hi : item.ty.element? = none) : e.Source := by
  have hb := h.own.source hc
  obtain ⟨a, -, harr⟩ := h.arranged
  cases harr with
  | plain => exact source_addTake (source_addSkip hb _) _
  | sorted _ hel =>
    rw [h.ty, hi] at hel
    cases hel

/-! ## Null guards -/

theorem Json.beq_null (v : Json) : (v == .null) = v.isNull := by
  cases v <;> rfl

theorem value_nullGuarded (guard build : Expr) :
    (Expr.nullGuarded guard build).value answers ρ =
      (guard.value answers ρ).bind fun v =>
        if v.isNull then some .null else build.value answers ρ := by
  simp only [Expr.nullGuarded, Expr.isNull, Expr.nullOf, Expr.value, Expr.valueUnder,
    Expr.sortValue_nil]
  cases guard.valueUnder answers ρ [] with
  | none => rfl
  | some v =>
    simp only [Option.bind_eq_bind, Option.bind_some, Option.pure_def, Json.beq_null]
    cases v.isNull <;> rfl

/-! ## Renderings -/

theorem keys_of_valueFields {fields : List (String × Expr)} {vs : List (String × Json)}
    (h : Expr.valueFields answers fields ρ = some vs) : Dict.keys vs = Dict.keys fields := by
  induction fields generalizing vs with
  | nil =>
    cases h
    rfl
  | cons field fields ih =>
    obtain ⟨name, e⟩ := field
    simp only [Expr.valueFields, Option.bind_eq_bind, Option.bind_eq_some_iff] at h
    obtain ⟨v, -, vs', hvs, h⟩ := h
    cases h
    simpa [Dict.keys] using ih hvs

theorem value_record {name : String} {fields : List (String × Expr)}
    (hn : (Dict.keys fields).Nodup) :
    (Expr.record name fields).value answers ρ = (Expr.valueFields answers fields ρ).map .obj := by
  simp only [Expr.value, Expr.valueUnder, Expr.sortValue_nil]
  cases h : Expr.valueFields answers fields ρ with
  | none => rfl
  | some vs =>
    have hk : (Dict.keys vs).Nodup := keys_of_valueFields h ▸ hn
    simp [Dict.ofList_of_nodup hk]

theorem value_letIn (p : Param) (value body : Expr) :
    (Expr.letIn p value body).value answers ρ =
      (value.value answers ρ).bind fun v => body.value answers (ρ.bind p v) := by
  simp [Expr.value, Expr.valueUnder]

theorem value_select (source : Expr) (x : Param) (body : Expr) :
    (Expr.select source x body).value answers ρ =
      (source.value answers ρ).bind fun v =>
        v.forItems fun item => body.value answers (ρ.bind x item) := by
  simp only [Expr.value, Expr.valueUnder, Expr.sortValue_nil]
  cases source.valueUnder answers ρ [] with
  | none => rfl
  | some v =>
    cases v with
    | arr items =>
      simp only [Option.bind_eq_bind, Option.bind_some, Json.forItems, Option.map_eq_bind]
      rfl
    | _ => rfl

theorem valueFields_rewrapped (respect : answers.Respect) (good : final.Good) {e : Expr} {p : Param}
    {fields : List (String × Expr)} {v : Json} (hs : e.Source) (hc : e.Called) (he : e.Coherent)
    (hp : ∀ field ∈ fields, p.id ∉ field.2.ids)
    (hb : e.Source → ∀ field ∈ fields, ∀ i ∈ field.2.binders, i ∉ e.ids ∧ i ∉ final.boundIds)
    (hρ : final.Means ρ) (hv : e.value answers ρ = some v) :
    Expr.valueFields answers (rewrapped final e p fields) (ρ.bind p v) =
      Expr.valueFields answers fields ρ := by
  refine Expr.valueFields_map fun x hx => ?_
  obtain ⟨field, hf, rfl⟩ := List.mem_map.mp hx
  have same := rewrap_translates respect good hc he (fun hs => hb hs field hf) (hp field hf)
  exact same.value_swap ⟨hs, hρ, v, hv, rfl⟩

/-- Null is arranged as null. -/
theorem Arranges.value_null {base e : Expr} {a : Arrangement} (h : Arranges config base a e) :
    a.value config answers base.ty.elementEntity .null = some .null := by
  have slices : ∀ skip take, (Json.null.skipItems skip).bind (·.takeItems take) = some .null := by
    rintro (_ | _ | _) (_ | _) <;> rfl
  unfold Arrangement.value
  cases h with
  | plain ho =>
    rw [show Json.null.sortByFields config answers base.ty.elementEntity a.order = some .null by
      unfold Json.sortByFields; simp [ho]]
    exact slices a.skip a.take
  | @sorted element entity list ho hel hen hs =>
    obtain ⟨keys, hkeys, -⟩ : ∃ keys, a.order.mapM (config.itemKey answers entity) = some keys ∧
        list.value answers (fun _ => none) =
          (base.value answers fun _ => none).bind (·.sortBy keys) := hs.value_eq ho
    rw [show Json.null.sortByFields config answers base.ty.elementEntity a.order = some .null by
      unfold Json.sortByFields Ty.elementEntity
      simp [ho, hel, hen, hkeys, Json.sortBy]]
    exact slices a.skip a.take

theorem Json.eq_null_of_mapItems {f : List Json → List Json} {v : Json}
    (h : v.mapItems f = some .null) : v = .null := by
  cases v <;> first | rfl | cases h

theorem Json.eq_null_of_sortBy {keys : List ItemKey} {v : Json} (h : v.sortBy keys = some .null) :
    v = .null := by
  cases v with
  | null => rfl
  | arr items =>
    obtain ⟨keyed, -, h⟩ := Option.bind_eq_some_iff.mp h
    cases h
  | _ => cases h

/-- What is null once it is arranged is null. -/
theorem Arrangement.eq_null_of_value {entity : Option String} {a : Arrangement} {v : Json}
    (h : a.value config answers entity v = some .null) : v = .null := by
  have skip : ∀ {v n}, Json.skipItems v n = some .null → v = .null := by
    rintro v (_ | _ | _) h
    · exact Option.some.inj h
    · exact Option.some.inj h
    · exact Json.eq_null_of_mapItems h
  have take : ∀ {v n}, Json.takeItems v n = some .null → v = .null := by
    rintro v (_ | _) h
    · exact Option.some.inj h
    · exact Json.eq_null_of_mapItems h
  unfold Arrangement.value at h
  obtain ⟨sorted, hsorted, h⟩ := Option.bind_eq_some_iff.mp h
  obtain ⟨rest, hrest, h⟩ := Option.bind_eq_some_iff.mp h
  rw [take h] at hrest
  rw [skip hrest] at hsorted
  unfold Json.sortByFields at hsorted
  split at hsorted
  · exact Option.some.inj hsorted
  · obtain ⟨entity, -, hsorted⟩ := Option.bind_eq_some_iff.mp hsorted
    obtain ⟨keys, -, hsorted⟩ := Option.bind_eq_some_iff.mp hsorted
    exact Json.eq_null_of_sortBy hsorted

theorem Expr.Sorted.ty_eq {entity : String} {element : Ty} {first : Bool}
    {order : List (String × Direction)} {base sorted : Expr}
    (h : Expr.Sorted config entity element first order base sorted) : sorted.ty = base.ty := by
  induction h with
  | nil => rfl
  | @cons first _ d _ list key _ x _ _ _ _ _ ih =>
    rw [ih]
    cases first <;> rfl

theorem Arranges.ty_eq {base e : Expr} {a : Arrangement} (h : Arranges config base a e) :
    e.ty = base.ty := by
  have skip : ∀ (e : Expr) (n : Option Nat), (addSkip e n).ty = e.ty := by
    rintro e (_ | _ | _) <;> rfl
  have take : ∀ (e : Expr) (n : Option Nat), (addTake e n).ty = e.ty := by
    rintro e (_ | _) <;> rfl
  cases h with
  | plain => rw [take, skip]
  | sorted _ _ _ hs => rw [take, skip, hs.ty_eq]

theorem Reads.ty_eq {context base e : Expr} {item : Item}
    (h : Reads config final context item base e) : e.ty = item.ty := by
  obtain ⟨a, -, harr⟩ := h.arranged
  rw [harr.ty_eq, h.ty]

section Forms

variable {item : Item} {children : List Wanted} {fields : List (String × Expr)} {own e : Expr}
  {called : Bool} {v : Json}

/-- The value of an object that comes from no service: its record, behind a test for null if its type
admits null. -/
theorem value_object (hty : e.ty = item.ty) (uncalled : item.called called = false)
    (heu : e.value answers ρ = item.value config answers v)
    (there : e.ty.nullable = false → (item.value config answers v).isSome = true)
    (record : ∀ u, item.value config answers v = some u → (u.isNull && e.ty.nullable) = false →
      (Expr.record item.name fields).value answers ρ =
        (Wanted.values config answers false u children).map .obj) :
    (guardIf e.ty.nullable e (.record item.name fields)).value answers ρ =
      (Wanted.object item children).value config answers called v := by
  rw [Wanted.value, uncalled, Bool.or_false, ← hty]
  unfold guardIf
  cases hnull : e.ty.nullable with
  | false =>
    obtain ⟨u, hu⟩ := Option.isSome_iff_exists.mp (there hnull)
    simp only [Bool.false_eq_true, if_false, hu, record u hu (by simp [hnull]), Bool.and_false,
      Option.bind_eq_bind, Option.bind_some, Option.map_eq_bind]
    rfl
  | true =>
    rw [if_pos rfl, value_nullGuarded, heu]
    refine Option.bind_congr fun u hu => ?_
    cases hguard : u.isNull with
    | true => rfl
    | false =>
      simp only [Bool.false_eq_true, if_false, record u hu (by simp [hguard]), Option.map_eq_bind,
        Bool.false_and]
      rfl

/-- The value of an object that comes from a service: its record, behind a test of the parameter that
its value is bound to. -/
theorem value_wrapped {p : Param} (hcalled : item.called called = true)
    (hown : own.value answers ρ = item.value config answers v)
    (record : ∀ u, item.value config answers v = some u → u.isNull = false →
      (Expr.record item.name fields).value answers (ρ.bind p u) =
        (Wanted.values config answers true u children).map .obj) :
    (Expr.letIn p own (.nullGuarded (.param p) (.record item.name fields))).value answers ρ =
      (Wanted.object item children).value config answers called v := by
  rw [Wanted.value, hcalled, Bool.or_true, value_letIn, hown]
  refine Option.bind_congr fun u hu => ?_
  rw [value_nullGuarded, Expr.value_param, Scope.value_bind, Option.bind_some]
  cases hguard : u.isNull with
  | true => rfl
  | false =>
    simp only [Bool.false_eq_true, if_false, record u hu hguard, Option.map_eq_bind, Bool.false_and]
    rfl

/-- The value of a list: the records of its items. -/
theorem value_list {x : Param} (hown : own.value answers ρ = item.value config answers v)
    (record : ∀ items, item.value config answers v = some (.arr items) → ∀ a ∈ items,
      (Expr.record item.name fields).value answers (ρ.bind x a) =
        (Wanted.values config answers false a children).map .obj) :
    (Expr.select own x (.record item.name fields)).value answers ρ =
      (Wanted.list item children).value config answers called v := by
  rw [Wanted.value, value_select, hown]
  refine Option.bind_congr fun u hu => Json.forItems_congr ?_
  rintro items rfl a ha
  exact record items hu a ha

/-- A list is null where an expression is null that a test is made of. -/
theorem value_list_guarded {base build : Expr}
    (null : base.value answers ρ = some .null → item.value config answers v = some .null)
    (there : base.value answers ρ = none → item.value config answers v = none)
    (list : build.value answers ρ = (Wanted.list item children).value config answers called v) :
    (Expr.nullGuarded base build).value answers ρ =
      (Wanted.list item children).value config answers called v := by
  rw [value_nullGuarded, list]
  cases hb : base.value answers ρ with
  | none =>
    rw [Wanted.value, there hb]
    rfl
  | some b =>
    rw [Option.bind_some]
    split
    · rename_i hnull
      obtain rfl : b = .null := by cases b <;> first | rfl | contradiction
      rw [Wanted.value, null hb]
      rfl
    · rfl

end Forms

mutual

/-- A rendering has the value of what it renders. -/
theorem Renders.value_eq (respect : answers.Respect) (good : final.Good) {context e : Expr}
    {w : Wanted} (h : Renders config final context w e) (hsource : context.Source)
    (regular : w.Regular) {ρ : Scope} (hρ : final.Means ρ) {v : Json}
    (hv : context.value answers ρ = some v) {called : Bool} (hc : called = true ↔ context.Served)
    (evaluated : w.Evaluated config answers called v) :
    e.value answers ρ = w.value config answers called v := by
  match h with
  | .leaf reads =>
    rw [PlanState.value_bound good reads.apart hρ, reads.value_eq hρ hv]
    rfl
  | @Renders.plain _ _ _ _ e item _ _ reads hs all hn =>
    have uncalled : item.called called = false :=
      Bool.eq_false_iff.mpr fun h => hs ((reads.called_iff hc).mp h)
    have heu := reads.value_eq hρ hv
    obtain ⟨there, inside⟩ := evaluated
    rw [uncalled, Bool.or_false, ← reads.ty_eq] at there inside
    refine value_object reads.ty_eq uncalled heu there fun u hu hguard => ?_
    rw [value_record hn, all.values_eq respect good (reads.source hsource regular.1) regular.2 hρ
      (heu.trans hu) (by simpa using hs) (inside u hu hguard)]
  | @Renders.wrapped _ _ _ _ e item _ fields p reads hs hcall all hn _ _ hpf hbf =>
    have hcalled := (reads.called_iff hc).mpr hs
    have heu := reads.value_eq hρ hv
    have inside := evaluated.2
    rw [hcalled, Bool.or_true] at inside
    refine value_wrapped hcalled ((PlanState.value_bound good reads.apart hρ).trans heu)
      fun u hu hguard => ?_
    have hkeys : Dict.keys (rewrapped final e p fields) = Dict.keys fields := by
      simp [rewrapped, Dict.keys]
    have hes := reads.source hsource regular.1
    rw [value_record (hkeys ▸ hn), valueFields_rewrapped respect good hes hcall reads.coherent hpf hbf
      hρ (heu.trans hu), all.values_eq respect good hes regular.2 hρ (heu.trans hu) (by simpa using hs)
        (inside u hu (by simp [hguard]))]
  | @Renders.items _ _ _ base e item children fields x reads _ _ all hn hx =>
    have heu := reads.value_eq hρ hv
    have list : (Expr.select e x (.record item.name fields)).value answers ρ =
        (Wanted.list item children).value config answers called v := by
      refine value_list heu fun items hitems a ha => ?_
      rw [value_record hn, all.values_eq respect good (.param x) regular (hρ.bind hx a) (by simp)
        (by simp [not_served_param]) (evaluated items hitems a ha)]
    obtain ⟨a, -, arranges⟩ := reads.arranged
    have through := heu.symm.trans arranges.value_eq
    unfold guardIf
    split
    · refine value_list_guarded (fun hb => ?_) (fun hb => ?_) list
      · rw [through, hb]
        exact arranges.value_null
      · rw [through, hb]
        rfl
    · exact list
  | @Renders.fetched _ _ _ _ e item children fields x p reads _ _ all hn hx _ hp =>
    have heu := (PlanState.value_bound good reads.apart hρ).trans (reads.value_eq hρ hv)
    have records : ∀ {ρ : Scope}, final.Means ρ → ∀ items,
        item.value config answers v = some (.arr items) → ∀ a ∈ items,
          (Expr.record item.name fields).value answers (ρ.bind x a) =
            (Wanted.values config answers false a children).map .obj := by
      intro ρ hρ items hitems a ha
      rw [value_record hn, all.values_eq respect good (.param x) regular (hρ.bind hx a) (by simp)
        (by simp [not_served_param]) (evaluated items hitems a ha)]
    split
    · rw [value_letIn, heu]
      cases hu : item.value config answers v with
      | none =>
        rw [Wanted.value, hu]
        rfl
      | some u =>
        have bound : (Expr.param p).value answers (ρ.bind p u) = item.value config answers v := by
          rw [Expr.value_param, Scope.value_bind, hu]
        exact value_list_guarded bound.symm.trans bound.symm.trans
          (value_list bound (records (hρ.bind hp u)))
    · exact value_list heu (records hρ)

/-- The fields of a rendering have the values of what they render. -/
theorem RendersAll.values_eq (respect : answers.Respect) (good : final.Good) {context : Expr}
    {ws : List Wanted} {fields : List (String × Expr)} (h : RendersAll config final context ws fields)
    (hsource : context.Source) (regular : Wanted.RegularAll ws) {ρ : Scope} (hρ : final.Means ρ)
    {v : Json} (hv : context.value answers ρ = some v) {called : Bool}
    (hc : called = true ↔ context.Served)
    (evaluated : Wanted.EvaluatedAll config answers called v ws) :
    Expr.valueFields answers fields ρ = Wanted.values config answers called v ws := by
  match h with
  | .nil => rfl
  | .cons hw hall =>
    have hfirst := hw.value_eq respect good hsource regular.1 hρ hv hc evaluated.1
    have hrest := hall.values_eq respect good hsource regular.2 hρ hv hc evaluated.2
    simp only [Expr.value] at hfirst
    rw [Expr.valueFields, Wanted.values, hfirst, hrest]

end

end Meaning

end FieldPlan
