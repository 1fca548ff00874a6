import FieldPlan.Proofs.Planning.Calls
import FieldPlan.Proofs.Planning.Meaning

/-!
# Null guards of renderings

* `Expr.Gates` : evaluating an expression stops at the value of another one where that is null, and
  `Expr.Behind` the form that plans give to it;
* `Guarded`, `GuardedAll` : every object of what is wanted is gated by its own value, and every list
  selects from its own value, wherever the expressions are evaluated;
* `Guarded.swap` : putting parameters in place of calls keeps this;
* `PlanState.CallsOwn` : the expression of a field itself calls nothing but what the field comes from;
* `Renders.guarded` : renderings are guarded.
-/

namespace FieldPlan

theorem Env.value_bind {σ : Type} (env : Env σ) (p : Param) (v : Json) :
    (env.bind p v).value p = pure v := by
  simp [Env.value, Env.slot_eq, Env.bind]

namespace Expr

/-! ## Gates -/

/-- Evaluation starts with `own`. Where that is null, so is the expression and nothing more is
evaluated; elsewhere `build` is, with a parameter bound to the value of `own` if there is one. -/
def Gates (own : Expr) (p : Option Param) (build e : Expr) : Prop :=
  ∀ {σ : Type} (services : Services σ) (env : Env σ), e.eval services env = do
    let v ← own.eval services env
    if v.isNull then pure .null else build.eval services (p.elim env fun p => env.bind p v)

/-- A part behind a test for null, of an expression or of a parameter that is bound to it. -/
inductive Behind (own : Expr) : Option Param → Expr → Expr → Prop
  | test (t u : Ty) (build : Expr) :
    Behind own none build (.condition (.equal own (.null t)) (.null u) build)
  | bound (p : Param) (t u : Ty) (build : Expr) :
    Behind own (some p) build
      (.letIn p own (.condition (.equal (.param p) (.null t)) (.null u) build))

theorem gates_test (own : Expr) (t u : Ty) (build : Expr) :
    own.Gates none build (.condition (.equal own (.null t)) (.null u) build) := by
  intro σ services env
  simp only [Expr.eval, evalUnder, sorted_nil, bind_assoc, pure_bind, Json.beq_null]
  refine congrArg _ (funext fun v => ?_)
  cases v.isNull <;> rfl

theorem gates_letIn {own : Expr} {p : Param} {build body : Expr}
    (h : (Expr.param p).Gates none build body) : own.Gates (some p) build (.letIn p own body) := by
  intro σ services env
  simp only [Expr.eval, evalUnder, sorted_nil]
  refine congrArg _ (funext fun v => ?_)
  have value : (Expr.param p).eval services (env.bind p v) = pure v := by
    simp only [Expr.eval, evalUnder, sorted_nil, Env.value_bind]
  have test := h services (env.bind p v)
  rw [value, pure_bind] at test
  exact test

theorem Behind.gates {own build e : Expr} {p : Option Param} (h : own.Behind p build e) :
    own.Gates p build e := by
  cases h with
  | test t u => exact gates_test own t u build
  | bound p t u => exact gates_letIn (gates_test (.param p) t u build)

theorem behind_nullGuarded (own build : Expr) : own.Behind none build (.nullGuarded own build) :=
  .test _ _ _

theorem behind_letIn (p : Param) (own build : Expr) :
    own.Behind (some p) build (.letIn p own (.nullGuarded (.param p) build)) := .bound p _ _ _

theorem Behind.own_mem {own build e : Expr} {p : Option Param} (h : own.Behind p build e) :
    own ∈ e.subterms := by
  cases h with
  | test t u =>
    have test : Expr.equal own (.null t) ∈ (Expr.condition _ (.null u) build).children :=
      List.mem_cons_self
    exact mem_subterms_of_child test (mem_subterms_of_child List.mem_cons_self (self_mem_subterms own))
  | bound p t u => exact mem_subterms_of_child List.mem_cons_self (self_mem_subterms own)

theorem Behind.build_mem {own build e : Expr} {p : Option Param} (h : own.Behind p build e) :
    build ∈ e.subterms := by
  have last : ∀ a b, build ∈ (Expr.condition a b build).subterms := fun a b =>
    mem_subterms_of_child (by simp [children]) (self_mem_subterms build)
  cases h with
  | test => exact last _ _
  | bound p => exact mem_subterms_of_child (List.mem_cons_of_mem _ List.mem_cons_self) (last _ _)

/-- What equals an expression that starts with a call starts with a call. -/
theorem Called.of_eqv {u u' : Expr} (hc : u.Called) (h : eqv u u' = true) : u'.Called := by
  induction hc generalizing u' with
  | call r method args t =>
    cases u' <;> simp [eqv] at h
    exact .call _ _ _ _
  | member name t _ ih =>
    cases u' <;> simp [eqv] at h
    exact .member _ _ (ih h.1.1)
  | slice f n t hf _ ih =>
    obtain ⟨list', rfl, hl⟩ := eqv_slice h
    exact .slice f n t hf (ih hl)

section Swaps

variable {own build e : Expr} {p : Option Param} {f : Expr → Option Expr}
  (hf : ∀ x r, f x = some r → x.Called)

include hf

theorem swap_of_not_called {x : Expr} (h : ¬x.Called) : x.swap f = x.mapParts (swap f) := by
  cases hx : f x with
  | none => exact swap_none hx
  | some r => exact absurd (hf x r hx) h

theorem swap_record (label : String) (fields : List (String × Expr)) :
    (Expr.record label fields).swap f =
      .record label (fields.map fun field => (field.1, field.2.swap f)) :=
  swap_of_not_called hf nofun

theorem swap_select (source : Expr) (x : Param) (body : Expr) :
    (Expr.select source x body).swap f = .select (source.swap f) x (body.swap f) :=
  swap_of_not_called hf nofun

theorem swap_test (guard : Expr) (t u : Ty) :
    (Expr.condition (.equal guard (.null t)) (.null u) build).swap f =
      .condition (.equal (guard.swap f) (.null t)) (.null u) (build.swap f) := by
  have null : ∀ t, (Expr.null t).swap f = .null t := fun t => swap_of_not_called hf (by rintro ⟨⟩)
  have equal : (Expr.equal guard (.null t)).swap f = .equal (guard.swap f) (.null t) := by
    rw [swap_of_not_called (x := .equal guard (.null t)) hf (by rintro ⟨⟩), mapParts, null]
  rw [swap_of_not_called (x := .condition _ _ _) hf (by rintro ⟨⟩), mapParts, equal, null]

theorem Behind.swap (h : own.Behind p build e) :
    (own.swap f).Behind p (build.swap f) (e.swap f) := by
  cases h with
  | test t u =>
    rw [swap_test hf]
    exact .test t u _
  | bound p t u =>
    have param : (Expr.param p).swap f = .param p := swap_of_not_called hf nofun
    rw [swap_of_not_called (x := .letIn _ _ _) hf nofun, mapParts, swap_test hf, param]
    exact .bound p t u _

end Swaps

end Expr

/-! ## Where expressions are evaluated -/

/-- Where the expression of a field is evaluated: what the parameters mean there, and the value that
the field belongs to. -/
abbrev Situations := Scope → Json → Prop

section Situations

variable (config : SchemaConfig) (answers : Answers)

/-- An expression has the value of a field itself. -/
def Item.GivenBy (item : Item) (S : Situations) (own : Expr) : Prop :=
  ∀ ρ v, S ρ v → own.value answers ρ = item.value config answers v

/-- An expression is null where a field itself is. -/
def Item.NullBy (item : Item) (S : Situations) (own : Expr) : Prop :=
  ∀ ρ v, S ρ v →
    (own.value answers ρ = some .null ↔ item.value config answers v = some .null)

namespace Situations

/-- The situations behind a gate, a parameter being bound to the value of a field. -/
def behind (S : Situations) (item : Item) (p : Option Param) : Situations := fun ρ' v =>
  ∃ ρ u, S ρ v ∧ item.value config answers v = some u ∧ ρ' = p.elim ρ fun p => ρ.bind p u

/-- The situations of what is wanted of the value of an object. There are none where a service pass reads
the object under the type of a list. -/
def inside (S : Situations) (item : Item) (p : Option Param) : Situations := fun ρ' u =>
  ∃ ρ v, S ρ v ∧ item.ty.element? = none ∧ item.value config answers v = some u ∧
    ρ' = p.elim ρ fun p => ρ.bind p u

/-- The situations of what is wanted of the items of a list. -/
def each (S : Situations) (item : Item) (x : Param) : Situations := fun ρ' a =>
  ∃ ρ v items, S ρ v ∧ item.value config answers v = some (.arr items) ∧ a ∈ items ∧ ρ' = ρ.bind x a

/-- The situations after a translation of scopes. -/
def through (S : Situations) (R : Scope → Scope → Prop) : Situations := fun ρ' v =>
  ∃ ρ, S ρ v ∧ R ρ ρ'

end Situations

end Situations

/-! ## Guarded expressions -/

section Guarded

variable (Calls : Item → Expr → Prop) (Gate : Expr → Option Param → Expr → Expr → Prop)
  (config : SchemaConfig) (answers : Answers)

mutual

/-- Every object of what is wanted is gated by its own value, so nothing is evaluated for what is
wanted of null; a list selects from its own value and may be gated by an expression that is null where
it is. A bare object is of a type without null, and its value comes from no service, `called` telling
whether the owner's value does. `Calls` says what the expression of a field itself may call. -/
inductive Guarded : Situations → Bool → Wanted → Expr → Prop
  | leaf {S : Situations} {called : Bool} {item : Item} {own : Expr} :
    item.GivenBy config answers S own → Calls item own → Guarded S called (.leaf item) own
  | bare {S : Situations} {called : Bool} {item : Item} {children : List Wanted}
    {fields : List (String × Expr)} :
    item.ty.nullable = false → item.called called = false →
      GuardedAll (S.inside config answers item none) (item.called called) children fields →
      Guarded S called (.object item children) (.record item.name fields)
  | object {S : Situations} {called : Bool} {item : Item} {children : List Wanted}
    {fields : List (String × Expr)} {own e : Expr} {p : Option Param} :
    item.GivenBy config answers S own → Calls item own → Gate own p (.record item.name fields) e →
      GuardedAll (S.inside config answers item p) (item.called called) children fields →
      Guarded S called (.object item children) e
  | items {S : Situations} {called : Bool} {item : Item} {children : List Wanted}
    {fields : List (String × Expr)} {own : Expr} {x : Param} :
    item.GivenBy config answers S own → Calls item own →
      GuardedAll (S.each config answers item x) false children fields →
      Guarded S called (.list item children) (.select own x (.record item.name fields))
  | list {S : Situations} {called : Bool} {item : Item} {children : List Wanted}
    {own build e : Expr} {p : Option Param} :
    item.NullBy config answers S own → Calls item own → Gate own p build e →
      Guarded (S.behind config answers item p) called (.list item children) build →
      Guarded S called (.list item children) e

/-- All that is wanted of a value is guarded. -/
inductive GuardedAll : Situations → Bool → List Wanted → List (String × Expr) → Prop
  | nil {S : Situations} {called : Bool} : GuardedAll S called [] []
  | cons {S : Situations} {called : Bool} {w : Wanted} {ws : List Wanted} {e : Expr}
    {fields : List (String × Expr)} :
    Guarded S called w e → GuardedAll S called ws fields →
      GuardedAll S called (w :: ws) ((w.name, e) :: fields)

end

end Guarded

section Guards

variable {config : SchemaConfig} {answers : Answers} {S T : Situations} {called : Bool} {w : Wanted}
  {ws : List Wanted} {e : Expr} {fields : List (String × Expr)}

theorem Item.GivenBy.null {item : Item} {own : Expr} (h : item.GivenBy config answers S own) :
    item.NullBy config answers S own := fun ρ v hS => by rw [h ρ v hS]

/-! ### Fewer situations -/

section Mono

variable {Calls Calls' : Item → Expr → Prop} {Gate Gate' : Expr → Option Param → Expr → Expr → Prop}

mutual

theorem Guarded.mono (hC : ∀ item own, Calls item own → Calls' item own)
    (hG : ∀ {own p build e}, Gate own p build e → Gate' own p build e) {S T : Situations} {called : Bool}
    {w : Wanted} {e : Expr} (h : Guarded Calls Gate config answers S called w e)
    (hT : ∀ ρ v, T ρ v → S ρ v) : Guarded Calls' Gate' config answers T called w e := by
  match h with
  | .leaf own calls => exact .leaf (fun ρ v h => own ρ v (hT ρ v h)) (hC _ _ calls)
  | .bare hn hc all =>
    refine .bare hn hc (all.mono hC hG ?_)
    rintro _ u ⟨ρ, v, h, inside⟩
    exact ⟨ρ, v, hT ρ v h, inside⟩
  | .object own calls gate all =>
    refine .object (fun ρ v h => own ρ v (hT ρ v h)) (hC _ _ calls) (hG gate) (all.mono hC hG ?_)
    rintro _ u ⟨ρ, v, h, inside⟩
    exact ⟨ρ, v, hT ρ v h, inside⟩
  | .items own calls all =>
    refine .items (fun ρ v h => own ρ v (hT ρ v h)) (hC _ _ calls) (all.mono hC hG ?_)
    rintro _ a ⟨ρ, v, items, h, each⟩
    exact ⟨ρ, v, items, hT ρ v h, each⟩
  | .list null calls gate build =>
    refine .list (fun ρ v h => null ρ v (hT ρ v h)) (hC _ _ calls) (hG gate) (build.mono hC hG ?_)
    rintro _ v ⟨ρ, u, h, behind⟩
    exact ⟨ρ, u, hT ρ v h, behind⟩

theorem GuardedAll.mono (hC : ∀ item own, Calls item own → Calls' item own)
    (hG : ∀ {own p build e}, Gate own p build e → Gate' own p build e) {S T : Situations} {called : Bool}
    {ws : List Wanted} {fields : List (String × Expr)}
    (h : GuardedAll Calls Gate config answers S called ws fields) (hT : ∀ ρ v, T ρ v → S ρ v) :
    GuardedAll Calls' Gate' config answers T called ws fields := by
  match h with
  | .nil => exact .nil
  | .cons hw hall => exact .cons (hw.mono hC hG hT) (hall.mono hC hG hT)

end

end Mono

/-! ### Swaps -/

section Swaps

variable {f : Expr → Option Expr} {R : Scope → Scope → Prop}

theorem Item.GivenBy.swap {item : Item} {own : Expr} (h : item.GivenBy config answers S own)
    (same : own.Translates answers f R) : item.GivenBy config answers (S.through R) (own.swap f) := by
  rintro ρ' v ⟨ρ, hS, hR⟩
  rw [same.value_swap hR, h ρ v hS]

theorem Item.NullBy.swap {item : Item} {own : Expr} (h : item.NullBy config answers S own)
    (same : own.Translates answers f R) : item.NullBy config answers (S.through R) (own.swap f) := by
  rintro ρ' v ⟨ρ, hS, hR⟩
  rw [same.value_swap hR]
  exact h ρ v hS

/-- Behind a gate, scopes stay related. -/
theorem Expr.Behind.related {own build e : Expr} {p : Option Param} (h : own.Behind p build e)
    (same : e.Translates answers f R) {ρ ρ' : Scope} (hR : R ρ ρ') (u : Json) :
    R (p.elim ρ fun p => ρ.bind p u) (p.elim ρ' fun p => ρ'.bind p u) := by
  cases h with
  | test => exact hR
  | bound p => exact same.bind ρ ρ' hR _ (Expr.self_mem_subterms _) p rfl u

mutual

/-- A swap of what starts with a call keeps the guards, if it keeps values. -/
theorem Guarded.swap (hf : ∀ x r, f x = some r → x.Called) {Calls Calls' : Item → Expr → Prop}
    (hC : ∀ item own, Calls item own → Calls' item (own.swap f)) {S : Situations} {called : Bool}
    {w : Wanted} {e : Expr} (h : Guarded Calls Expr.Behind config answers S called w e)
    (same : e.Translates answers f R) :
    Guarded Calls' Expr.Behind config answers (S.through R) called w (e.swap f) := by
  match h with
  | .leaf own calls => exact .leaf (own.swap same) (hC _ _ calls)
  | .bare hn hc all =>
    rw [Expr.swap_record hf]
    refine .bare hn hc ((all.swap hf hC fun x hx => same.child hx).mono (fun _ _ => id) id ?_)
    rintro _ u ⟨ρ', v, ⟨ρ, hS, hR⟩, ty, hu, rfl⟩
    exact ⟨ρ, ⟨ρ, v, hS, ty, hu, rfl⟩, hR⟩
  | .object own calls behind all =>
    have swapped := behind.swap hf
    rw [Expr.swap_record hf] at swapped
    have fields := same.subterm behind.build_mem
    refine .object (own.swap (same.subterm behind.own_mem)) (hC _ _ calls) swapped
      ((all.swap hf hC fun x hx => fields.child hx).mono (fun _ _ => id) id ?_)
    rintro _ u ⟨ρ', v, ⟨ρ, hS, hR⟩, ty, hu, rfl⟩
    exact ⟨_, ⟨ρ, v, hS, ty, hu, rfl⟩, behind.related same hR u⟩
  | @Guarded.items _ _ _ _ _ _ _ _ fields source x own calls all =>
    rw [Expr.swap_select hf, Expr.swap_record hf]
    have body := same.child (List.mem_cons_of_mem _ List.mem_cons_self)
    refine .items (own.swap (same.child List.mem_cons_self)) (hC _ _ calls)
      ((all.swap hf hC fun x hx => body.child hx).mono (fun _ _ => id) id ?_)
    rintro _ a ⟨ρ', v, items, ⟨ρ, hS, hR⟩, hitems, ha, rfl⟩
    exact ⟨_, ⟨ρ, v, items, hS, hitems, ha, rfl⟩,
      same.bind ρ ρ' hR _ (Expr.self_mem_subterms _) x rfl a⟩
  | .list null calls behind build =>
    refine .list (null.swap (same.subterm behind.own_mem)) (hC _ _ calls) (behind.swap hf)
      ((build.swap hf hC (same.subterm behind.build_mem)).mono (fun _ _ => id) id ?_)
    rintro _ v ⟨ρ', u, ⟨ρ, hS, hR⟩, hu, rfl⟩
    exact ⟨_, ⟨ρ, u, hS, hu, rfl⟩, behind.related same hR u⟩

theorem GuardedAll.swap (hf : ∀ x r, f x = some r → x.Called) {Calls Calls' : Item → Expr → Prop}
    (hC : ∀ item own, Calls item own → Calls' item (own.swap f)) {S : Situations} {called : Bool}
    {ws : List Wanted} {fields : List (String × Expr)}
    (h : GuardedAll Calls Expr.Behind config answers S called ws fields)
    (same : ∀ x ∈ fields.map (·.2), x.Translates answers f R) :
    GuardedAll Calls' Expr.Behind config answers (S.through R) called ws
      (fields.map fun field => (field.1, field.2.swap f)) := by
  match h with
  | .nil => exact .nil
  | .cons hw hall =>
    obtain ⟨first, rest⟩ := List.forall_mem_cons.mp same
    exact .cons (hw.swap hf hC first) (hall.swap hf hC rest)

end

end Swaps

end Guards

/-! ## Renderings -/

section Renderings

variable {config : SchemaConfig} {answers : Answers} {final : PlanState} {K : Expr → Bool}

/-- Apart from what is hidden, an expression calls what a field itself comes from, and nothing else. -/
def PlanState.CallsOwn (final : PlanState) (K : Expr → Bool) (item : Item) (own : Expr) : Prop :=
  ∀ name method, final.shown name method K own ≤ item.source.calls name method

/-- All that an expression and its bound form call is hidden. -/
def PlanState.Hidden (final : PlanState) (K : Expr → Bool) (e : Expr) : Prop :=
  ∀ name method, final.shown name method K e = 0 ∧ final.shown name method K (final.bound e) = 0

theorem PlanState.hidden_param (final : PlanState) (K : Expr → Bool) (x : Param) :
    final.Hidden K (.param x) :=
  fun _ _ => ⟨shown_param x, shown_bound_param x⟩

theorem PlanState.Hidden.callsOwn {e : Expr} (h : final.Hidden K e) (item : Item) :
    final.CallsOwn K item e := fun name method => (h name method).1 ▸ Nat.zero_le _

/-- A base expression is hidden where a parameter takes its place. -/
theorem PlanState.hidden_hiding (final : PlanState) (K : Expr → Bool) (e : Expr) (p : Param) :
    final.Hidden (final.hiding e p K) e := by
  obtain ⟨he, hb⟩ : (rewrap final e p e).isSome = true ∧
      (rewrap final e p (final.bound e)).isSome = true := rewrap_self p
  exact fun _ _ => ⟨Expr.shown_hidden (by simp [PlanState.hiding, he]),
    Expr.shown_hidden (by simp [PlanState.hiding, hb])⟩

/-- Where the expression of an owner's value has that value. -/
def PlanState.Situated (final : PlanState) (answers : Answers) (context : Expr) : Situations :=
  fun ρ v => context.Source ∧ final.Means ρ ∧ context.value answers ρ = some v

/-- What is hidden where a parameter takes its place is gone when it has. -/
theorem PlanState.CallsOwn.rewrap {e own : Expr} {p : Param} {item : Item}
    (calls : final.CallsOwn (final.hiding e p K) item own) (hpb : p.id ∉ final.boundIds) :
    final.CallsOwn K item (own.swap (rewrap final e p)) := fun name method =>
  (shown_rewrap_le hpb own).trans (calls name method)

theorem rewrap_called {e : Expr} (hc : e.Called) (p : Param) {x r : Expr}
    (h : rewrap final e p x = some r) : x.Called := by
  rcases (rewrap_some h).2 with h | h
  · exact hc.of_eqv h
  · exact hc.bound.of_eqv h

section Reads

variable {context base e : Expr} {item : Item} (reads : Reads config final context item base e)

include reads

theorem Reads.givenBy : item.GivenBy config answers (final.Situated answers context) e :=
  fun _ _ ⟨_, hρ, hv⟩ => reads.value_eq hρ hv

theorem Reads.bound_givenBy (good : final.Good) :
    item.GivenBy config answers (final.Situated answers context) (final.bound e) :=
  fun _ _ ⟨_, hρ, hv⟩ => by rw [PlanState.value_bound good reads.apart hρ, reads.value_eq hρ hv]

theorem Reads.bound_callsOwn (good : final.Good) (hidden : final.Hidden K context) :
    final.CallsOwn K item (final.bound e) :=
  fun name method => reads.shown_bound_le good (hidden name method).2

/-- What comes from no service calls nothing. -/
theorem Reads.hidden (hs : ¬e.Served) (hidden : final.Hidden K context) : final.Hidden K e := by
  intro name method
  rw [PlanState.bound_of_not_served reads.coherent hs]
  have zero := (reads.shown_of_not_served hs (hidden name method).1).2
  exact ⟨zero, zero⟩

theorem Reads.base_callsOwn (hs : ¬e.Served) (hidden : final.Hidden K context) :
    final.CallsOwn K item base := fun name method =>
  (reads.shown_of_not_served hs (hidden name method).1).1 ▸ Nat.zero_le _

/-- A list is null where it is null before it is arranged. -/
theorem Reads.base_nullBy : item.NullBy config answers (final.Situated answers context) base := by
  rintro ρ v ⟨-, hρ, hv⟩
  obtain ⟨a, -, arranges⟩ := reads.arranged
  rw [← reads.value_eq hρ hv, arranges.value_eq, Option.bind_eq_some_iff]
  constructor
  · intro h
    exact ⟨.null, h, arranges.value_null⟩
  · rintro ⟨b, hb, h⟩
    rw [hb, Arrangement.eq_null_of_value h]

/-- The value of a field is the value of its expression. -/
theorem Reads.situated_inside {ρ : Scope} {u : Json}
    (h : (final.Situated answers context).inside config answers item none ρ u) :
    final.Situated answers e ρ u := by
  obtain ⟨ρ, v, ⟨hs, hρ, hv⟩, ty, hu, rfl⟩ := h
  exact ⟨reads.source hs ty, hρ, (reads.value_eq hρ hv).trans hu⟩

/-- It is also the value that a parameter is bound to in its place. -/
theorem Reads.rebound_inside {p : Param} {ρ' : Scope} {u : Json}
    (h : (final.Situated answers context).inside config answers item (some p) ρ' u) :
    (final.Situated answers e).through (final.Rebinds answers e p) ρ' u := by
  obtain ⟨ρ, v, ⟨hs, hρ, hv⟩, ty, hu, rfl⟩ := h
  have source := reads.source hs ty
  have value := (reads.value_eq hρ hv).trans hu
  exact ⟨ρ, ⟨source, hρ, value⟩, source, hρ, u, value, rfl⟩

end Reads

/-- A list selects from its own value. -/
theorem GuardedAll.select {S : Situations} {called : Bool} {item : Item} {children : List Wanted}
    {fields : List (String × Expr)} {own : Expr} {x : Param}
    (all : GuardedAll (final.CallsOwn K) Expr.Behind config answers
      (final.Situated answers (.param x)) false children fields)
    (hx : x.id ∉ final.boundIds) (means : ∀ ρ v, S ρ v → final.Means ρ)
    (given : item.GivenBy config answers S own) (calls : final.CallsOwn K item own) :
    Guarded (final.CallsOwn K) Expr.Behind config answers S called (.list item children)
      (.select own x (.record item.name fields)) := by
  refine .items given calls (all.mono (fun _ _ => id) id ?_)
  rintro _ a ⟨ρ, v, items, hS, -, -, rfl⟩
  exact ⟨.param x, (means ρ v hS).bind hx a, by simp⟩

mutual

/-- What a plan renders is guarded. -/
theorem Renders.guarded (respect : answers.Respect) (good : final.Good) {C e : Expr} {w : Wanted}
    (h : Renders config final C w e) {called : Bool} (hc : called = true ↔ C.Served)
    {K : Expr → Bool} (hidden : final.Hidden K C) :
    Guarded (final.CallsOwn K) Expr.Behind config answers (final.Situated answers C) called w e := by
  match h with
  | .leaf reads => exact .leaf (reads.bound_givenBy good) (reads.bound_callsOwn good hidden)
  | @Renders.plain _ _ _ _ e item _ fields reads hs all _ =>
    have hcalled := reads.called_iff hc
    have uncalled : item.called called = false := Bool.eq_false_iff.mpr fun h => hs (hcalled.mp h)
    have below := reads.hidden hs hidden
    have guarded := (all.guarded respect good hcalled below).mono (fun _ _ => id) id fun _ _ =>
      reads.situated_inside
    unfold guardIf
    cases hnull : e.ty.nullable with
    | false => exact .bare (reads.ty_eq ▸ hnull) uncalled guarded
    | true =>
      rw [if_pos rfl]
      exact .object reads.givenBy (below.callsOwn item) (e.behind_nullGuarded _) guarded
  | @Renders.wrapped _ _ _ _ e _ _ _ p reads _ hcall all _ _ hpb hpf hbf =>
    have rendered := all.guarded respect good (reads.called_iff hc) (final.hidden_hiding K e p)
    have swapped := rendered.swap (fun _ _ => rewrap_called hcall p)
      (fun _ _ calls => calls.rewrap hpb) fun x hx => by
        obtain ⟨field, hf, rfl⟩ := List.mem_map.mp hx
        exact rewrap_translates respect good hcall reads.coherent (fun hs => hbf hs field hf)
          (hpf field hf)
    exact .object (reads.bound_givenBy good) (reads.bound_callsOwn good hidden)
      (Expr.behind_letIn _ _ _) (swapped.mono (fun _ _ => id) id fun _ _ => reads.rebound_inside)
  | @Renders.items _ _ _ base e item children fields x reads hs _ all _ hx =>
    have below := reads.hidden hs hidden
    have items : Guarded (final.CallsOwn K) Expr.Behind config answers (final.Situated answers C) called
        (.list item children) (.select e x (.record item.name fields)) :=
      (all.guarded respect good (by simp [not_served_param]) (final.hidden_param K x)).select hx
        (fun _ _ h => h.2.1) reads.givenBy (below.callsOwn item)
    unfold guardIf
    split
    · refine .list reads.base_nullBy (reads.base_callsOwn hs hidden) (base.behind_nullGuarded _)
        (items.mono (fun _ _ => id) id ?_)
      rintro _ v ⟨ρ, u, h, -, rfl⟩
      exact h
    · exact items
  | @Renders.fetched _ _ _ _ _ item _ _ x p reads _ _ all _ hx _ hp =>
    have rendered := all.guarded respect good (iff_of_false Bool.false_ne_true (not_served_param _))
      (final.hidden_param K x)
    have calls := reads.bound_callsOwn good hidden
    split
    · refine .list (reads.bound_givenBy good).null calls (Expr.behind_letIn _ _ _)
        (rendered.select hx ?_ ?_ ((final.hidden_param K p).callsOwn item))
      · rintro _ v ⟨ρ, u, h, -, rfl⟩
        exact h.2.1.bind hp u
      · rintro _ v ⟨ρ, u, h, hu, rfl⟩
        rw [Expr.value_param, hu]
        exact Scope.value_bind ρ _ u
    · exact rendered.select hx (fun _ _ h => h.2.1) (reads.bound_givenBy good) calls

theorem RendersAll.guarded (respect : answers.Respect) (good : final.Good) {C : Expr}
    {ws : List Wanted} {fields : List (String × Expr)} (h : RendersAll config final C ws fields)
    {called : Bool} (hc : called = true ↔ C.Served) {K : Expr → Bool} (hidden : final.Hidden K C) :
    GuardedAll (final.CallsOwn K) Expr.Behind config answers (final.Situated answers C) called ws
      fields := by
  match h with
  | .nil => exact .nil
  | .cons hw hall =>
    exact .cons (hw.guarded respect good hc hidden) (hall.guarded respect good hc hidden)

end

end Renderings

end FieldPlan
