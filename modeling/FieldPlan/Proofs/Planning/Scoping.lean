import FieldPlan.Proofs.Expr.Scoped
import FieldPlan.Proofs.Planning.Meaning

/-!
# Scopes of renderings

* `PlanState.Splits` : the parameters of services are apart from the ones for values;
* `Arranges.base_mem` : a value that is arranged is a part of what it is arranged to;
* `Renders.scoped` : over a context in scope a rendering is in scope.
-/

namespace FieldPlan

open Expr

open Extension.Paging (addSkip addTake countExpr)

variable {config : SchemaConfig} {final : PlanState} {S V W : Nat → Prop} {C e : Expr}

/-- The parameters of services are in `S`, the ones of records of arguments in `V`, and only bound
parameters are in `S`. -/
structure PlanState.Splits (final : PlanState) (S V : Nat → Prop) : Prop where
  service : ∀ name p, final.serviceParams.find? name = some p → S p.id
  record : ∀ arguments p, final.Records arguments p → V p.id
  bound : ∀ i, S i → i ∈ final.boundIds

theorem PlanState.Splits.mono (h : final.Splits S V) (hVW : ∀ i, V i → W i) : final.Splits S W :=
  ⟨h.service, fun arguments p hp => hVW _ (h.record arguments p hp), h.bound⟩

theorem PlanState.Splits.not_service (h : final.Splits S V) {i : Nat} (hi : i ∉ final.boundIds) :
    ¬S i := fun hs => hi (h.bound i hs)

/-! ## Bound forms -/

theorem PlanState.bound_neutral (h : e.Neutral) : final.bound e = e.mapParts final.bound := by
  refine swap_none ?_
  cases e <;> first | rfl | cases h

theorem scoped_bound (hn : e.Neutral) (hb : e.bound? = none)
    (h : ∀ c ∈ e.children, Scoped S V (final.bound c)) : Scoped S V (final.bound e) := by
  rw [PlanState.bound_neutral hn]
  refine scoped_of_children (hn.mapParts _) (by rw [bound_mapParts, hb]) fun c hc => ?_
  rw [children_mapParts] at hc
  obtain ⟨d, hd, rfl⟩ := List.mem_map.mp hc
  exact h d hd

theorem scoped_bound_param {p : Param} (hp : V p.id) : Scoped S V (final.bound (.param p)) := by
  rw [PlanState.bound_of_not_served (coherent_param p) (not_served_param p)]
  exact .value hp

namespace Expr

theorem Chain.scoped {path : List String} (h : C.Chain path e) (hC : Scoped S V (final.bound C)) :
    Scoped S V (final.bound e) := by
  induction h with
  | nil => exact hC
  | snoc name t _ _ ih =>
    refine scoped_bound trivial rfl fun c hc => ?_
    cases List.mem_singleton.mp hc
    exact ih

theorem Input.scoped {arguments : Dict Json} {a : ServiceArg}
    (h : Input (final.Records arguments) C a e) (splits : final.Splits S V)
    (hC : Scoped S V (final.bound C)) : Scoped S V (final.bound e) := by
  cases h with
  | member h => exact h.scoped hC
  | argument name hp =>
    refine scoped_bound trivial rfl fun c hc => ?_
    cases List.mem_singleton.mp hc
    exact scoped_bound_param (splits.record _ _ hp)
  | constant v t => exact scoped_bound trivial rfl nofun

theorem Own.scoped {arguments : Dict Json} {source : Resolve}
    (h : Own (final.Records arguments) C source e) (splits : final.Splits S V)
    (covers : final.Covers e) (hC : Scoped S V (final.bound C)) : Scoped S V (final.bound e) := by
  cases h with
  | member h => exact h.scoped hC
  | @service name method t args es h =>
    obtain ⟨p, hp⟩ := covers name (mem_subterms_of_child List.mem_cons_self (self_mem_subterms _))
    have receiver : final.bound (.service name) = .param p :=
      swap_some (by simp [PlanState.handle, hp])
    have call : final.bound (.invoke (.service name) method es t) =
        .invoke (final.bound (.service name)) method (es.map final.bound) t := swap_none rfl
    rw [call, receiver]
    refine .call (splits.service name p hp) fun a ha => ?_
    obtain ⟨e, he, rfl⟩ := List.mem_map.mp ha
    obtain ⟨a, -, h⟩ := exists_of_forall₂ h he
    exact h.scoped splits hC
  | constant v t => exact scoped_bound trivial rfl fun _ h => absurd h List.not_mem_nil

theorem KeyOwn.scoped {x : Param} {source : Resolve} {key : Expr} (h : KeyOwn x source key)
    (hx : V x.id) : Scoped S V (final.bound key) := by
  cases h with
  | member h => exact h.scoped (scoped_bound_param hx)
  | constant v t => exact scoped_bound trivial rfl nofun

theorem Sorted.base_mem {entity : String} {element : Ty} {first : Bool}
    {order : List (String × Direction)} {base sorted : Expr}
    (h : Sorted config entity element first order base sorted) : base ∈ sorted.subterms := by
  induction h with
  | nil => exact self_mem_subterms _
  | cons _ _ _ _ ih => exact subterms_trans ih (mem_subterms_of_child List.mem_cons_self (self_mem_subterms _))

theorem Sorted.scoped {entity : String} {element : Ty} {first : Bool}
    {order : List (String × Direction)} {base sorted : Expr}
    (h : Sorted config entity element first order base sorted) (apart : ∀ i ∈ sorted.binders, ¬S i)
    (hbase : Scoped S V (final.bound base)) : Scoped S V (final.bound sorted) := by
  induction h with
  | nil => exact hbase
  | @cons first _ d _ list key sorted x _ _ _ hkey hs ih =>
    refine ih apart (scoped_bound trivial rfl fun c hc => ?_)
    simp only [children, List.mem_cons, List.not_mem_nil, or_false] at hc
    rcases hc with rfl | rfl
    · exact hbase
    · have lambda : final.bound (.lambda x key) = .lambda x (final.bound key) := swap_none rfl
      have bound : x.id ∈ sorted.binders := by
        refine mem_binders.mpr ⟨.lambda x key, subterms_trans hs.base_mem ?_, x, rfl, rfl⟩
        exact mem_subterms_of_child (by simp [children]) (self_mem_subterms _)
      rw [lambda]
      exact scoped_lambda (apart _ bound) (hkey.scoped (.inr rfl))

end Expr

/-! ## Values of fields -/

theorem slices_base_mem (list : Expr) (skip take : Option Nat) :
    list ∈ (addTake (addSkip list skip) take).subterms := by
  have slice : ∀ (list : Expr) (f : Builtin) (n : Nat),
      list ∈ (Expr.builtin f [list, countExpr n]).subterms := fun list _ _ =>
    mem_subterms_of_child List.mem_cons_self (self_mem_subterms list)
  have skipped : list ∈ (addSkip list skip).subterms := by
    match skip with
    | none | some 0 => exact self_mem_subterms list
    | some (n + 1) => exact slice list _ _
  match take with
  | none => exact skipped
  | some n => exact subterms_trans (slice _ _ _) skipped

theorem scoped_slices {list : Expr} (h : Scoped S V (final.bound list)) (skip take : Option Nat) :
    Scoped S V (final.bound (addTake (addSkip list skip) take)) := by
  have slice : ∀ {list : Expr} {f : Builtin} {n : Nat}, Scoped S V (final.bound list) →
      Scoped S V (final.bound (.builtin f [list, countExpr n])) := by
    intro list f n h
    refine scoped_bound trivial rfl fun c hc => ?_
    simp only [children, List.mem_cons, List.not_mem_nil, or_false] at hc
    rcases hc with rfl | rfl
    · exact h
    · exact scoped_bound trivial rfl nofun
  have skipped : Scoped S V (final.bound (addSkip list skip)) := by
    match skip with
    | none | some 0 => exact h
    | some (n + 1) => exact slice h
  match take with
  | none => exact skipped
  | some n => exact slice skipped

theorem Arranges.base_mem {base : Expr} {a : Arrangement} (h : Arranges config base a e) :
    base ∈ e.subterms := by
  cases h with
  | plain _ => exact slices_base_mem _ _ _
  | sorted _ _ _ hs => exact subterms_trans (slices_base_mem _ _ _) hs.base_mem

theorem Arranges.scoped {base : Expr} {a : Arrangement} (h : Arranges config base a e)
    (apart : ∀ i ∈ e.binders, ¬S i) (hbase : Scoped S V (final.bound base)) :
    Scoped S V (final.bound e) := by
  cases h with
  | plain _ => exact scoped_slices hbase _ _
  | @sorted _ _ list _ _ _ hs =>
    refine scoped_slices (hs.scoped (fun i hi => apart i ?_) hbase) _ _
    exact binders_of_subterm (slices_base_mem list _ _) hi

theorem Reads.scoped {base : Expr} {item : Item} (h : Reads config final C item base e)
    (splits : final.Splits S V) (hC : Scoped S V (final.bound C)) :
    Scoped S V (final.bound base) ∧ Scoped S V (final.bound e) := by
  obtain ⟨a, -, harr⟩ := h.arranged
  have covers : final.Covers base := fun name hn => h.covers name (subterms_trans harr.base_mem hn)
  have own := h.own.scoped splits covers hC
  exact ⟨own, harr.scoped (fun i hi => splits.not_service (h.apart i hi)) own⟩

/-- Where no service is called, the value of a field is its own bound form. -/
theorem Reads.scoped_unserved {base : Expr} {item : Item} (h : Reads config final C item base e)
    (hs : ¬e.Served) (splits : final.Splits S V) (hC : Scoped S V (final.bound C)) :
    Scoped S V base ∧ Scoped S V e := by
  obtain ⟨a, -, harr⟩ := h.arranged
  obtain ⟨hbase, he⟩ := h.scoped splits hC
  have coherent : base.Coherent := h.coherent.subterm harr.base_mem
  rw [PlanState.bound_of_not_served coherent fun hb => hs (harr.served_iff.mpr hb)] at hbase
  rw [PlanState.bound_of_not_served h.coherent hs] at he
  exact ⟨hbase, he⟩

/-! ## Renderings -/

theorem scoped_guardIf {needed : Bool} {guard build : Expr} (hg : Scoped S V guard)
    (hb : Scoped S V build) : Scoped S V (guardIf needed guard build) := by
  unfold guardIf
  split
  · exact scoped_nullGuarded hg hb
  · exact hb

mutual

/-- Over a context in scope a rendering is in scope. -/
theorem Renders.scoped {V : Nat → Prop} {C e : Expr} {w : Wanted} (h : Renders config final C w e) (splits : final.Splits S V)
    (hC : Scoped S V (final.bound C)) : Scoped S V e := by
  match h with
  | .leaf reads => exact (reads.scoped splits hC).2
  | .plain reads hs all _ =>
    obtain ⟨-, he⟩ := reads.scoped_unserved hs splits hC
    refine scoped_guardIf he (scoped_record (all.scoped splits ?_))
    rwa [PlanState.bound_of_not_served reads.coherent hs]
  | @Renders.wrapped _ _ _ _ e item _ fields p reads _ called all _ _ hp _ _ =>
    obtain ⟨-, he⟩ := reads.scoped splits hC
    have put : ∀ i, V i → V i ∨ i = p.id := fun _ => .inl
    refine scoped_letIn he (splits.not_service hp) (scoped_nullGuarded (.value (.inr rfl))
      (scoped_record fun field hf => ?_))
    obtain ⟨before, hmem, rfl⟩ := List.mem_map.mp hf
    refine ((all.scoped splits he before hmem).mono put).swap (fun x r hr => ?_) fun q => ?_
    · exact ⟨p, (rewrap_some hr).1, .inr rfl⟩
    · -- no parameter equals a call, so that the receivers of calls stay
      have unlike : ∀ {u : Expr}, u.Called → Expr.eqv u (.param q) = false := fun h => by
        cases h <;> rfl
      cases hr : rewrap final e p (.param q) with
      | none => rfl
      | some r =>
        rcases (rewrap_some hr).2 with h | h
        · exact Bool.noConfusion ((unlike called).symm.trans h)
        · exact Bool.noConfusion ((unlike called.bound).symm.trans h)
  | @Renders.items _ _ _ _ e item _ fields x reads hs _ all _ hx =>
    obtain ⟨hbase, he⟩ := reads.scoped_unserved hs splits hC
    refine scoped_guardIf hbase (scoped_select he (splits.not_service hx) (scoped_record ?_))
    exact all.scoped (splits.mono fun _ => .inl) (scoped_bound_param (.inr rfl))
  | @Renders.fetched _ _ _ _ e item _ fields x p reads _ _ all _ hx _ hp =>
    obtain ⟨-, he⟩ := reads.scoped splits hC
    have body : ∀ {W : Nat → Prop}, (∀ i, V i → W i) →
        Scoped S (fun i => W i ∨ i = x.id) (.record item.name fields) := fun hVW =>
      scoped_record (all.scoped (splits.mono fun i hi => .inl (hVW i hi))
        (scoped_bound_param (.inr rfl)))
    split
    · exact scoped_letIn he (splits.not_service hp) (scoped_nullGuarded (.value (.inr rfl))
        (scoped_select (.value (.inr rfl)) (splits.not_service hx) (body fun _ => .inl)))
    · exact scoped_select he (splits.not_service hx) (body fun _ => id)

theorem RendersAll.scoped {V : Nat → Prop} {C : Expr} {ws : List Wanted}
    {fields : List (String × Expr)} (h : RendersAll config final C ws fields) (splits : final.Splits S V)
    (hC : Scoped S V (final.bound C)) : ∀ field ∈ fields, Scoped S V field.2 := by
  match h with
  | .nil => simp
  | .cons hw hall =>
    exact List.forall_mem_cons.mpr ⟨hw.scoped splits hC, hall.scoped splits hC⟩

end

end FieldPlan
