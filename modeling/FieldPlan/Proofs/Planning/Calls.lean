import FieldPlan.Proofs.Expr.Calls
import FieldPlan.Proofs.Planning.Loose
import Mathlib.Data.List.Nodup

/-!
# Calls of renderings

* `Wanted.calls` : how many of the values that are wanted come from a method of a service;
* `Renders.shown_le` : a rendering calls the method no more often, apart from what its context calls;
* `Renders.keysPure` : no sort key calls a service.
-/

namespace FieldPlan

/-! ## Wanted calls -/

section Wanted

variable (name : ServiceName) (method : String)

/-- Whether a value itself comes from a method of a service. -/
def Resolve.calls : Resolve → Nat
  | .service s m _ => if s = name ∧ m = method then 1 else 0
  | _ => 0

mutual

/-- How many of the values that are wanted come from a method of a service. -/
def Wanted.calls : Wanted → Nat
  | .leaf item => item.source.calls name method
  | .object item ws | .list item ws => item.source.calls name method + Wanted.callsAll ws

/-- How many of the values that are wanted come from a method of a service. -/
def Wanted.callsAll : List Wanted → Nat
  | [] => 0
  | w :: ws => Wanted.calls w + Wanted.callsAll ws

end

theorem Item.calls_view_le (frame : Frame) (τ : Ty) (item : Item) :
    (item.view frame τ).source.calls name method ≤ item.source.calls name method := by
  have reread : (item.source.reread item.field τ).calls name method =
      item.source.calls name method := by
    cases item.source <;> rfl
  unfold Item.view
  split
  · split
    · exact Nat.zero_le _
    · split
      · exact Nat.zero_le _
      · exact Nat.le_of_eq reread
  · exact Nat.le_refl _

mutual

theorem Wanted.calls_view_le (frame : Frame) (τ : Ty) (w : Wanted) :
    (w.view frame τ).calls name method ≤ w.calls name method := by
  match w with
  | .leaf item => exact Item.calls_view_le name method frame τ item
  | .object item ws | .list item ws =>
    exact Nat.add_le_add (Item.calls_view_le name method frame τ item)
      (Wanted.calls_viewAll_le frame.below _ ws)

theorem Wanted.calls_viewAll_le (frame : Frame) (τ : Ty) (ws : List Wanted) :
    Wanted.callsAll name method (Wanted.viewAll frame τ ws) ≤ Wanted.callsAll name method ws := by
  match ws with
  | [] => exact Nat.le_refl _
  | w :: ws =>
    exact Nat.add_le_add (Wanted.calls_view_le frame τ w) (Wanted.calls_viewAll_le frame τ ws)

end

end Wanted

/-! ## Calls of fields themselves -/

section Shown

variable {config : SchemaConfig} {final : PlanState} {K : Expr → Bool} {name : ServiceName}
  {method : String} {C e : Expr}

/-- The calls of a method of a service, as a plan binds it, outside of what is hidden. -/
def PlanState.shown (final : PlanState) (name : ServiceName) (method : String) (K : Expr → Bool) :
    Expr → Nat :=
  Expr.shown K (Expr.isCall final.bindings name method)

namespace Expr

theorem shown_zero {P : Expr → Bool} (hP : P e = false)
    (h : ∀ c ∈ e.children, Expr.shown K P c = 0) : Expr.shown K P e = 0 := by
  refine Nat.eq_zero_of_le_zero (Nat.le_trans shown_le ?_)
  rw [hP, List.map_congr_left h]
  simp

theorem Chain.shown {path : List String} (h : C.Chain path e)
    (hC : final.shown name method K C = 0) : final.shown name method K e = 0 := by
  induction h with
  | nil => exact hC
  | snoc _ _ _ _ ih =>
    refine shown_zero rfl fun c hc => ?_
    cases List.mem_singleton.mp hc
    exact ih

theorem Own.shown_le {Record : Param → Prop} {source : Resolve} (h : Own Record C source e)
    (hC : final.shown name method K C = 0) :
    final.shown name method K e ≤ source.calls name method := by
  have leaf : ∀ {x : Expr}, x.children = [] → isCall final.bindings name method x = false →
      final.shown name method K x = 0 := fun hx hP => shown_zero hP (by simp [hx])
  cases h with
  | member h => exact Nat.le_of_eq (h.shown hC)
  | @service s m t args es h =>
    refine Nat.le_trans Expr.shown_le ?_
    have none : ∀ c ∈ (Expr.invoke (.service s) m es t).children,
        final.shown name method K c = 0 := by
      intro c hc
      rcases List.mem_cons.mp hc with rfl | hc
      · exact leaf rfl rfl
      · obtain ⟨a, -, h⟩ := exists_of_forall₂ h hc
        cases h with
        | member h => exact h.shown hC
        | argument n hp =>
          refine shown_zero rfl fun c hc => ?_
          cases List.mem_singleton.mp hc
          exact leaf rfl rfl
        | constant v t => exact leaf rfl rfl
    have zero : ((Expr.invoke (.service s) m es t).children.map
        (final.shown name method K)).sum = 0 := by
      rw [List.map_congr_left none]
      simp
    have here : (if isCall final.bindings name method (.invoke (.service s) m es t) then 1 else 0) =
        (Resolve.service s m args).calls name method := by
      simp [isCall, denotes, Resolve.calls, and_comm]
    rw [here]
    show _ + (List.map (final.shown name method K) _).sum ≤ _
    rw [zero]
    exact Nat.le_refl _
  | constant v t => exact Nat.le_of_eq (leaf rfl rfl)

theorem KeyOwn.shown {x : Param} {source : Resolve} {key : Expr} (h : KeyOwn x source key) :
    final.shown name method K key = 0 := by
  cases h with
  | member h => exact h.shown (shown_zero rfl (by simp [children]))
  | constant v t => exact shown_zero rfl (by simp [children])

theorem Sorted.shown_le {entity : String} {element : Ty} {first : Bool}
    {order : List (String × Direction)} {base sorted : Expr}
    (h : Sorted config entity element first order base sorted) :
    final.shown name method K sorted ≤ final.shown name method K base := by
  induction h with
  | nil => exact Nat.le_refl _
  | @cons first _ d _ list key _ x _ _ _ hkey _ ih =>
    refine Nat.le_trans ih (Nat.le_trans Expr.shown_le ?_)
    have zero : Expr.shown K (isCall final.bindings name method) (.lambda x key) = 0 := by
      refine shown_zero rfl fun c hc => ?_
      cases List.mem_singleton.mp hc
      exact hkey.shown
    simp [isCall, children, zero, PlanState.shown]

end Expr

open Expr

open Extension.Paging (addSkip addTake countExpr)

theorem shown_slice_le {list : Expr} {f : Builtin} {n : Nat} :
    final.shown name method K (.builtin f [list, countExpr n]) ≤ final.shown name method K list := by
  refine Nat.le_trans Expr.shown_le ?_
  have zero : Expr.shown K (isCall final.bindings name method) (countExpr n) = 0 :=
    shown_zero rfl (by simp [countExpr, children])
  simp [isCall, children, zero, PlanState.shown]

theorem shown_slices_le {list : Expr} {skip take : Option Nat} :
    final.shown name method K (addTake (addSkip list skip) take) ≤
      final.shown name method K list := by
  have skipped : final.shown name method K (addSkip list skip) ≤ final.shown name method K list := by
    match skip with
    | none | some 0 => exact Nat.le_refl _
    | some (n + 1) => exact shown_slice_le
  match take with
  | none => exact skipped
  | some n => exact Nat.le_trans shown_slice_le skipped

theorem Arranges.shown_le {base e : Expr} {a : Arrangement} (h : Arranges config base a e) :
    final.shown name method K e ≤ final.shown name method K base := by
  cases h with
  | plain _ => exact shown_slices_le
  | sorted _ _ _ hs => exact Nat.le_trans shown_slices_le hs.shown_le

theorem Reads.shown_le {base : Expr} {item : Item} (h : Reads config final C item base e)
    (hC : final.shown name method K C = 0) :
    final.shown name method K e ≤ item.source.calls name method := by
  obtain ⟨a, -, harr⟩ := h.arranged
  exact Nat.le_trans harr.shown_le (h.own.shown_le hC)

/-! ## Bound forms -/

theorem PlanState.handle_some {x r : Expr} (h : final.handle x = some r) :
    ∃ s q, x = .service s ∧ r = .param q ∧ final.serviceParams.find? s = some q := by
  cases x with
  | service s =>
    obtain ⟨q, hq, rfl⟩ := Option.map_eq_some_iff.mp h
    exact ⟨s, q, rfl, rfl, hq⟩
  | _ => cases h

/-- The parameter of a service denotes it and no other one. -/
theorem PlanState.denotes_param (good : final.Good) {s : ServiceName} {q : Param}
    (hq : final.serviceParams.find? s = some q) :
    denotes final.bindings name (.param q) = (s == name) := by
  have hmem := (good.params s q hq).1
  unfold denotes
  rw [Bool.eq_iff_iff, List.any_eq_true]
  constructor
  · rintro ⟨⟨p, b⟩, hb, h⟩
    cases b with
    | value v => cases h
    | service s' =>
      simp only [Bool.and_eq_true, beq_iff_eq] at h
      cases List.inj_on_of_nodup_map good.nodup hb hmem h.1
      simpa using h.2
  · intro h
    exact ⟨_, hmem, by simpa using h⟩

/-- Binding the handle of a service does not change what it denotes. -/
theorem PlanState.denotes_bound (good : final.Good) (r : Expr) :
    denotes final.bindings name (final.bound r) = denotes final.bindings name r := by
  unfold PlanState.bound
  cases h : final.handle r with
  | some r' =>
    rw [swap_some h]
    obtain ⟨s, q, rfl, rfl, hq⟩ := handle_some h
    exact denotes_param good hq
  | none =>
    rw [swap_none h]
    cases r <;> rfl

theorem PlanState.isCall_bound (good : final.Good) {x : Expr} :
    isCall final.bindings name method (x.mapParts final.bound) =
      isCall final.bindings name method x := by
  cases x with
  | invoke r m args t => exact congrArg (m == method && ·) (denotes_bound good r)
  | _ => rfl

/-- What is hidden of an expression when it is hidden of its bound form. -/
def PlanState.hidden (final : PlanState) (K : Expr → Bool) (x : Expr) : Bool :=
  (final.handle x).isSome || K (final.bound x)

theorem PlanState.shown_bound (good : final.Good) (e : Expr) :
    final.shown name method K (final.bound e) = final.shown name method (final.hidden K) e := by
  have params : ∀ x r, final.handle x = some r → ∃ q, r = .param q := fun x r h => by
    obtain ⟨-, q, -, rfl, -⟩ := handle_some h
    exact ⟨q, rfl⟩
  refine Nat.le_antisymm ?_ ?_
  · exact shown_swap_le params (fun _ => rfl) fun x _ _ h => (isCall_bound good).symm.trans h
  · exact le_shown_swap fun x _ _ h => (isCall_bound good).trans h

theorem Reads.shown_bound_le (good : final.Good) {base : Expr} {item : Item}
    (h : Reads config final C item base e) (hB : final.shown name method K (final.bound C) = 0) :
    final.shown name method K (final.bound e) ≤ item.source.calls name method := by
  rw [PlanState.shown_bound good] at hB ⊢
  exact h.shown_le hB

theorem Reads.shown_of_not_served {base : Expr} {item : Item}
    (h : Reads config final C item base e) (hs : ¬e.Served)
    (hC : final.shown name method K C = 0) :
    final.shown name method K base = 0 ∧ final.shown name method K e = 0 := by
  obtain ⟨a, -, harr⟩ := h.arranged
  have zero : item.source.calls name method = 0 := by
    have own := h.own
    generalize item.source = source at own ⊢
    cases own with
    | service s m t _ =>
      refine absurd (harr.served_iff.mpr ⟨s, ?_⟩) hs
      exact mem_subterms_of_child List.mem_cons_self (self_mem_subterms _)
    | _ => rfl
  have base := zero ▸ h.own.shown_le hC
  exact ⟨Nat.eq_zero_of_le_zero base, Nat.eq_zero_of_le_zero (Nat.le_trans harr.shown_le base)⟩

/-! ## Calls of renderings -/

/-- What is hidden before a parameter is put in place of a base expression: what it replaces, and what is
hidden afterwards. -/
def PlanState.hiding (final : PlanState) (e : Expr) (p : Param) (K : Expr → Bool) (x : Expr) : Bool :=
  (rewrap final e p x).isSome || K (x.swap (rewrap final e p))

/-- With a parameter in place of a base expression, a field calls what it calls outside of it. -/
theorem shown_rewrap_le {p : Param} (hp : p.id ∉ final.boundIds) (field : Expr) :
    final.shown name method K (field.swap (rewrap final e p)) ≤
      final.shown name method (final.hiding e p K) field := by
  refine shown_swap_le (fun x r hr => ⟨p, (rewrap_some hr).1⟩) (fun _ => rfl) fun x _ _ hx => ?_
  cases x with
  | invoke r m args t =>
    simp only [mapParts, isCall, Bool.and_eq_true] at hx ⊢
    refine ⟨hx.1, ?_⟩
    have denoted := hx.2
    cases hr : rewrap final e p r with
    | some r' =>
      rw [swap_some hr, (rewrap_some hr).1] at denoted
      obtain ⟨b, hb, h⟩ := List.any_eq_true.mp denoted
      refine absurd ?_ hp
      split at h
      · simp only [Bool.and_eq_true, beq_iff_eq] at h
        exact h.1 ▸ List.mem_map_of_mem hb
      · cases h
    | none =>
      rw [swap_none hr] at denoted
      cases r <;> exact denoted
  | _ => cases hx

theorem shown_param (x : Param) : final.shown name method K (.param x) = 0 :=
  shown_zero rfl (by simp [children])

theorem shown_bound_param (x : Param) : final.shown name method K (final.bound (.param x)) = 0 := by
  rw [PlanState.bound_of_not_served (coherent_param x) (not_served_param x)]
  exact shown_param x

theorem shown_nullGuarded_le {guard build : Expr} :
    final.shown name method K (.nullGuarded guard build) ≤
      final.shown name method K guard + final.shown name method K build := by
  have null : ∀ t, Expr.shown K (isCall final.bindings name method) (nullOf t) = 0 := fun t =>
    shown_zero rfl (by simp [nullOf, children])
  have test : Expr.shown K (isCall final.bindings name method) (isNull guard) ≤
      final.shown name method K guard := by
    refine Nat.le_trans Expr.shown_le ?_
    simp [isNull, isCall, children, null, PlanState.shown]
  refine Nat.le_trans Expr.shown_le ?_
  simpa [nullGuarded, isCall, children, null, PlanState.shown] using test

theorem shown_guardIf_le {needed : Bool} {guard build : Expr} :
    final.shown name method K (guardIf needed guard build) ≤
      final.shown name method K guard + final.shown name method K build := by
  unfold guardIf
  split
  · exact shown_nullGuarded_le
  · exact Nat.le_add_left _ _

theorem shown_record_le {label : String} {fields : List (String × Expr)} :
    final.shown name method K (.record label fields) ≤
      (fields.map fun field => final.shown name method K field.2).sum := by
  refine Nat.le_trans Expr.shown_le ?_
  simp [isCall, children, PlanState.shown, Function.comp_def]

theorem shown_select_le {source body : Expr} {x : Param} :
    final.shown name method K (.select source x body) ≤
      final.shown name method K source + final.shown name method K body := by
  refine Nat.le_trans Expr.shown_le ?_
  simp [isCall, children, PlanState.shown]

theorem shown_letIn_le {value body : Expr} {x : Param} :
    final.shown name method K (.letIn x value body) ≤
      final.shown name method K value + final.shown name method K body := by
  refine Nat.le_trans Expr.shown_le ?_
  simp [isCall, children, PlanState.shown]

mutual

/-- A rendering calls a method no more often than values are wanted that come from it, apart from
what its context calls. -/
theorem Renders.shown_le (good : final.Good) {C e : Expr} {w : Wanted}
    (h : Renders config final C w e) {K : Expr → Bool} (hC : final.shown name method K C = 0)
    (hB : final.shown name method K (final.bound C) = 0) :
    final.shown name method K e ≤ w.calls name method := by
  match h with
  | .leaf reads => exact reads.shown_bound_le good hB
  | @Renders.plain _ _ _ base e item children fields reads hs all hn =>
    have zero : final.shown name method K e = 0 := (reads.shown_of_not_served hs hC).2
    have bound : final.shown name method K (final.bound e) = 0 := by
      rwa [PlanState.bound_of_not_served reads.coherent hs]
    calc
      final.shown name method K (guardIf e.ty.nullable e (.record item.name fields))
        ≤ 0 + final.shown name method K (.record item.name fields) := zero ▸ shown_guardIf_le
      _ ≤ 0 + Wanted.callsAll name method children :=
        Nat.add_le_add_left (Nat.le_trans shown_record_le (all.shown_le good zero bound)) 0
      _ ≤ item.source.calls name method + Wanted.callsAll name method children :=
        Nat.add_le_add_right (Nat.zero_le _) _
  | @Renders.wrapped _ _ _ base e item children fields p reads hs hcall all hn hty hpb hpf hbf =>
    obtain ⟨he, hb⟩ : (rewrap final e p e).isSome = true ∧
        (rewrap final e p (final.bound e)).isSome = true := rewrap_self p
    have children_le := all.shown_le (K := final.hiding e p K) good
      (shown_hidden (by simp [PlanState.hiding, he])) (shown_hidden (by simp [PlanState.hiding, hb]))
    have record : final.shown name method K (.record item.name (rewrapped final e p fields)) ≤
        Wanted.callsAll name method children := by
      refine Nat.le_trans shown_record_le (Nat.le_trans ?_ children_le)
      rw [rewrapped, List.map_map]
      exact List.sum_le_sum fun field _ => shown_rewrap_le hpb field.2
    calc
      final.shown name method K (.letIn p (final.bound e)
          (.nullGuarded (.param p) (.record item.name (rewrapped final e p fields))))
        ≤ final.shown name method K (final.bound e) +
          (final.shown name method K (.param p) +
            final.shown name method K (.record item.name (rewrapped final e p fields))) :=
        Nat.le_trans shown_letIn_le (Nat.add_le_add_left shown_nullGuarded_le _)
      _ ≤ item.source.calls name method + (0 + Wanted.callsAll name method children) :=
        Nat.add_le_add (reads.shown_bound_le good hB)
          (Nat.add_le_add (Nat.le_of_eq (shown_param p)) record)
      _ = item.source.calls name method + Wanted.callsAll name method children := by
        rw [Nat.zero_add]
  | @Renders.items _ _ _ base e item children fields x reads hs hel all hn hx =>
    obtain ⟨zero, zero'⟩ : final.shown name method K base = 0 ∧ final.shown name method K e = 0 :=
      reads.shown_of_not_served hs hC
    have record : final.shown name method K (.record item.name fields) ≤
        Wanted.callsAll name method children :=
      Nat.le_trans shown_record_le (all.shown_le good (shown_param x) (shown_bound_param x))
    calc
      final.shown name method K (guardIf base.ty.nullable base
          (.select e x (.record item.name fields)))
        ≤ 0 + (0 + final.shown name method K (.record item.name fields)) := by
        refine Nat.le_trans shown_guardIf_le (Nat.add_le_add (Nat.le_of_eq zero) ?_)
        exact zero' ▸ shown_select_le
      _ ≤ 0 + (0 + Wanted.callsAll name method children) :=
        Nat.add_le_add_left (Nat.add_le_add_left record 0) 0
      _ ≤ item.source.calls name method + Wanted.callsAll name method children := by
        rw [Nat.zero_add, Nat.zero_add]
        exact Nat.le_add_left _ _
  | @Renders.fetched _ _ _ base e item children fields x q reads hs hel all hn hx hty hq =>
    have record : final.shown name method K (.record item.name fields) ≤
        Wanted.callsAll name method children :=
      Nat.le_trans shown_record_le (all.shown_le good (shown_param x) (shown_bound_param x))
    have own := reads.shown_bound_le good hB
    split
    · calc
        _ ≤ final.shown name method K (final.bound e) +
            (final.shown name method K (.param q) +
              (final.shown name method K (.param q) +
                final.shown name method K (.record item.name fields))) :=
          shown_letIn_le.trans (Nat.add_le_add_left
            (shown_nullGuarded_le.trans (Nat.add_le_add_left shown_select_le _)) _)
        _ ≤ item.source.calls name method + Wanted.callsAll name method children := by
          rw [shown_param, Nat.zero_add, Nat.zero_add]
          exact Nat.add_le_add own record
    · exact shown_select_le.trans (Nat.add_le_add own record)

theorem RendersAll.shown_le (good : final.Good) {C : Expr} {ws : List Wanted}
    {fields : List (String × Expr)} (h : RendersAll config final C ws fields) {K : Expr → Bool}
    (hC : final.shown name method K C = 0) (hB : final.shown name method K (final.bound C) = 0) :
    (fields.map fun field => final.shown name method K field.2).sum ≤
      Wanted.callsAll name method ws := by
  match h with
  | .nil => exact Nat.le_refl _
  | .cons hw hall =>
    rw [List.map_cons, List.sum_cons]
    exact Nat.add_le_add (hw.shown_le good hC hB) (hall.shown_le good hC hB)

end

end Shown

/-! ## Sort keys of renderings -/

section Keys

variable {config : SchemaConfig} {final : PlanState} {C e : Expr}

namespace Expr

theorem keysPure_leaf {x : Expr} (hx : x.children = []) (hl : x.lambda? = none) : x.KeysPure :=
  keysPure_of_children hl (by simp [hx])

theorem Chain.keysPure {path : List String} (h : C.Chain path e) (hC : C.KeysPure) :
    e.KeysPure := by
  induction h with
  | nil => exact hC
  | snoc _ _ _ _ ih => exact keysPure_of_children rfl (by simp [children, ih])

theorem Chain.not_invoke {path : List String} (h : C.Chain path e)
    (hC : ∀ y ∈ C.subterms, y.isInvoke = false) : ∀ y ∈ e.subterms, y.isInvoke = false := by
  induction h with
  | nil => exact hC
  | snoc _ _ _ _ ih =>
    intro y hy
    rcases mem_subterms.mp hy with rfl | ⟨c, hc, hy⟩
    · rfl
    · cases List.mem_singleton.mp hc
      exact ih y hy

theorem KeyOwn.not_invoke {x : Param} {source : Resolve} {key : Expr} (h : KeyOwn x source key) :
    ∀ y ∈ key.subterms, y.isInvoke = false := by
  have leaf : ∀ {z : Expr}, z.children = [] → z.isInvoke = false →
      ∀ y ∈ z.subterms, y.isInvoke = false := by
    intro z hz hi y hy
    rcases mem_subterms.mp hy with rfl | ⟨c, hc, -⟩
    · exact hi
    · rw [hz] at hc
      cases hc
  cases h with
  | member h => exact h.not_invoke (leaf rfl rfl)
  | constant v t => exact leaf rfl rfl

theorem Own.keysPure {Record : Param → Prop} {source : Resolve} (h : Own Record C source e)
    (hC : C.KeysPure) : e.KeysPure := by
  cases h with
  | member h => exact h.keysPure hC
  | service s m t h =>
    refine keysPure_of_children rfl fun c hc => ?_
    rcases List.mem_cons.mp hc with rfl | hc
    · exact keysPure_leaf rfl rfl
    · obtain ⟨a, -, h⟩ := exists_of_forall₂ h hc
      cases h with
      | member h => exact h.keysPure hC
      | @argument p n hp =>
        have param : (Expr.param p).KeysPure := keysPure_leaf rfl rfl
        exact keysPure_of_children rfl (by simp [children, param])
      | constant v t => exact keysPure_leaf rfl rfl
  | constant v t => exact keysPure_leaf rfl rfl

theorem KeysPure.builtin {f : Builtin} {list e : Expr} (hl : list.KeysPure) (he : e.KeysPure) :
    (Expr.builtin f [list, e]).KeysPure := keysPure_of_children rfl (by simp [children, hl, he])

theorem KeyOwn.keysPure {x : Param} {source : Resolve} {key : Expr} (h : KeyOwn x source key) :
    (Expr.lambda x key).KeysPure := by
  have inner : key.KeysPure := by
    cases h with
    | member h => exact h.keysPure (keysPure_leaf rfl rfl)
    | constant v t => exact keysPure_leaf rfl rfl
  intro y k hk
  rcases mem_subterms.mp hk with hk | ⟨c, hc, hk⟩
  · cases hk
    exact h.not_invoke
  · cases List.mem_singleton.mp hc
    exact inner y k hk

theorem Sorted.keysPure {entity : String} {element : Ty} {first : Bool}
    {order : List (String × Direction)} {base sorted : Expr}
    (h : Sorted config entity element first order base sorted) (hb : base.KeysPure) :
    sorted.KeysPure := by
  induction h with
  | nil => exact hb
  | cons _ _ hkey _ ih => exact ih (hb.builtin hkey.keysPure)

end Expr

open Expr

open Extension.Paging (addSkip addTake countExpr)

theorem keysPure_slices {list : Expr} (h : list.KeysPure) (skip take : Option Nat) :
    (addTake (addSkip list skip) take).KeysPure := by
  have count : ∀ n, (countExpr n).KeysPure := fun n => keysPure_leaf rfl rfl
  have skipped : (addSkip list skip).KeysPure := by
    match skip with
    | none | some 0 => exact h
    | some (n + 1) => exact h.builtin (count _)
  match take with
  | none => exact skipped
  | some n => exact skipped.builtin (count _)

theorem Arranges.keysPure {base e : Expr} {a : Arrangement} (h : Arranges config base a e)
    (hb : base.KeysPure) : e.KeysPure := by
  cases h with
  | plain _ => exact keysPure_slices hb _ _
  | sorted _ _ _ hs => exact keysPure_slices (hs.keysPure hb) _ _

theorem Reads.keysPure {base : Expr} {item : Item} (h : Reads config final C item base e)
    (hC : C.KeysPure) : base.KeysPure ∧ e.KeysPure := by
  obtain ⟨a, -, harr⟩ := h.arranged
  have own := h.own.keysPure hC
  exact ⟨own, harr.keysPure own⟩

theorem PlanState.keysPure_bound (h : e.KeysPure) : (final.bound e).KeysPure :=
  h.swap fun x r hr => by
    obtain ⟨-, q, -, rfl, -⟩ := handle_some hr
    exact ⟨q, rfl⟩

theorem keysPure_nullGuarded {guard build : Expr} (hg : guard.KeysPure) (hb : build.KeysPure) :
    (Expr.nullGuarded guard build).KeysPure := by
  have null : ∀ t, (nullOf t).KeysPure := fun t => keysPure_leaf rfl rfl
  have test : (isNull guard).KeysPure :=
    keysPure_of_children rfl (by simp [isNull, children, hg, null])
  exact keysPure_of_children rfl (by simp [nullGuarded, children, test, null, hb])

theorem keysPure_guardIf {needed : Bool} {guard build : Expr} (hg : guard.KeysPure)
    (hb : build.KeysPure) : (guardIf needed guard build).KeysPure := by
  unfold guardIf
  split
  · exact keysPure_nullGuarded hg hb
  · exact hb

theorem keysPure_record {label : String} {fields : List (String × Expr)}
    (h : ∀ field ∈ fields, field.2.KeysPure) : (Expr.record label fields).KeysPure := by
  refine keysPure_of_children rfl fun c hc => ?_
  obtain ⟨field, hf, rfl⟩ := List.mem_map.mp hc
  exact h field hf

theorem keysPure_select {source body : Expr} {x : Param} (hs : source.KeysPure)
    (hb : body.KeysPure) : (Expr.select source x body).KeysPure :=
  keysPure_of_children rfl (by simp [children, hs, hb])

theorem keysPure_letIn {value body : Expr} {x : Param} (hv : value.KeysPure)
    (hb : body.KeysPure) : (Expr.letIn x value body).KeysPure :=
  keysPure_of_children rfl (by simp [children, hv, hb])

mutual

/-- No sort key of a rendering calls a service, apart from those of its context. -/
theorem Renders.keysPure {C e : Expr} {w : Wanted} (h : Renders config final C w e)
    (hC : C.KeysPure) : e.KeysPure := by
  have param : ∀ x : Param, (Expr.param x).KeysPure := fun x => keysPure_leaf rfl rfl
  match h with
  | .leaf reads => exact PlanState.keysPure_bound (reads.keysPure hC).2
  | .plain reads _ all _ =>
    have own := (reads.keysPure hC).2
    exact keysPure_guardIf own (keysPure_record fun field hf => all.keysPure own hf)
  | .wrapped reads _ _ all _ _ _ _ _ =>
    have own := (reads.keysPure hC).2
    refine keysPure_letIn (PlanState.keysPure_bound own)
      (keysPure_nullGuarded (param _) (keysPure_record fun field hf => ?_))
    obtain ⟨before, hmem, rfl⟩ := List.mem_map.mp hf
    exact (all.keysPure own hmem).swap fun x r hr => ⟨_, (rewrap_some hr).1⟩
  | .items reads _ _ all _ _ =>
    obtain ⟨base, own⟩ := reads.keysPure hC
    exact keysPure_guardIf base (keysPure_select own
      (keysPure_record fun field hf => all.keysPure (param _) hf))
  | @Renders.fetched _ _ _ _ e item _ fields _ _ reads _ _ all _ _ _ _ =>
    have own : (final.bound e).KeysPure := PlanState.keysPure_bound (reads.keysPure hC).2
    have body : (Expr.record item.name fields).KeysPure :=
      keysPure_record fun field hf => all.keysPure (param _) hf
    split
    · exact keysPure_letIn own (keysPure_nullGuarded (param _) (keysPure_select (param _) body))
    · exact keysPure_select own body

theorem RendersAll.keysPure {C : Expr} {ws : List Wanted} {fields : List (String × Expr)}
    (h : RendersAll config final C ws fields) (hC : C.KeysPure) {field : String × Expr}
    (hf : field ∈ fields) : field.2.KeysPure := by
  match h with
  | .cons hw hall =>
    rcases List.mem_cons.mp hf with rfl | hf
    · exact hw.keysPure hC
    · exact hall.keysPure hC hf

end

end Keys

end FieldPlan
