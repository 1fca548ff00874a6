import FieldPlan.Proofs.Planning.Arranged

/-!
# What planning emits

* `Emitted` : the parameters of an expression that was emitted between two states, over a context;
* `emitted_of_parts`, `Emitted.trans`, `Emitted.grows` : how emitted expressions are put together;
* `Arranged.reads`, `Arranged.admits` : the arranged base expression of a field, as it is read and as a
  context.
-/

namespace FieldPlan

open Expr

open Extension.Paging (addSkip addTake)

variable {config : SchemaConfig} {low : Nat} {frame : Frame} {s s' s'' : PlanState} {C e : Expr}

/-- Emitted between two states: every parameter was drawn, and what is bound was drawn in between
and is not bound by the plan, or is bound in the context as well. -/
structure Emitted (s s' : PlanState) (C e : Expr) : Prop where
  coherent : e.Coherent
  below : ∀ i ∈ e.ids, i < s'.fresh
  binders : ∀ i ∈ e.binders, i ∈ C.binders ∨ s.fresh ≤ i ∧ i ∉ s'.boundIds

theorem Emitted.grows (h : Emitted s s' C e) (hs : s'.Grows s'') : Emitted s s'' C e where
  coherent := h.coherent
  below i hi := Nat.lt_of_lt_of_le (h.below i hi) hs.fresh
  binders i hi := (h.binders i hi).imp_right fun ⟨hle, hb⟩ => by
    refine ⟨hle, ?_⟩
    rwa [hs.boundIds (h.below i (ids_of_binders hi))]

/-- Emitted over a context that was emitted before. -/
theorem Emitted.trans {B : Expr} (h : Emitted s s' C B) (hs : s'.Grows s'')
    (he : Emitted s' s'' B e) (hle : s.Grows s') : Emitted s s'' C e where
  coherent := he.coherent
  below := he.below
  binders i hi := by
    rcases he.binders i hi with hB | ⟨hlt, hb⟩
    · exact (h.grows hs).binders i hB
    · exact .inr ⟨Nat.le_trans hle.fresh hlt, hb⟩

theorem emitted_of_parts (fits : e.Fits) (own : ∀ p, e.own? = some p → p.id < s'.fresh)
    (bound : ∀ p, e.bound? = some p → s.fresh ≤ p.id ∧ p.id ∉ s'.boundIds)
    (parts : ∀ c ∈ e.children, Emitted s s' C c) : Emitted s s' C e where
  coherent := coherent_iff.mpr ⟨fits, fun c hc => (parts c hc).coherent⟩
  below i hi := by
    rcases mem_ids_iff.mp hi with ⟨p, hp, rfl⟩ | ⟨c, hc, hic⟩
    · exact own p hp
    · exact (parts c hc).below i hic
  binders i hi := by
    rcases mem_binders_iff.mp hi with ⟨p, hp, rfl⟩ | ⟨c, hc, hic⟩
    · exact .inr (bound p hp)
    · exact (parts c hc).binders i hic

theorem Emitted.apart (h : Emitted s s' C e) (admits : frame.Admits low s C) (hs : s.Grows s')
    {final : PlanState} (hfinal : s'.Grows final) : ∀ i ∈ e.binders, i ∉ final.boundIds := by
  intro i hi
  rw [hfinal.boundIds (h.below i (ids_of_binders hi))]
  rcases h.binders i hi with hC | ⟨-, hb⟩
  · rw [hs.boundIds (admits.below i (ids_of_binders hC))]
    exact admits.apart i hC
  · exact hb

/-- Parameters put in place of parts of the same types. -/
theorem Emitted.swap {f : Expr → Option Expr} (h : Emitted s s' C e) (renames : e.Renames f)
    (hf : ∀ x p, f x = some (.param p) → p.id < s'.fresh) : Emitted s s' C (e.swap f) where
  coherent := renames.coherent_swap h.coherent
  below i hi := by
    rcases ids_swap hi with hi | ⟨x, hx, r, hr, hi⟩
    · exact h.below i hi
    · obtain ⟨⟨p, rfl⟩, -⟩ := renames x hx r hr
      obtain rfl : i = p.id := by simpa [Expr.ids, subterms, own?] using hi
      exact hf x p hr
  binders i hi := by
    rcases binders_swap hi with hi | ⟨x, hx, r, hr, hi⟩
    · exact h.binders i hi
    · obtain ⟨⟨p, rfl⟩, -⟩ := renames x hx r hr
      cases hi

theorem Emitted.bound (h : Emitted s s' C e) (good : s'.Good) : Emitted s s' C (s'.bound e) := by
  refine h.swap good.renames fun x p hp => ?_
  cases x with
  | service name =>
    simp only [PlanState.handle, Option.map_eq_some_iff] at hp
    obtain ⟨q, hq, hqp⟩ := hp
    cases hqp
    exact good.below _ (good.params name _ hq).1
  | _ => cases hp

theorem emitted_param {p : Param} (hp : p.id < s'.fresh) : Emitted s s' C (.param p) :=
  emitted_of_parts trivial (fun q hq => by cases hq; exact hp) (fun q hq => by cases hq)
    fun c hc => by cases hc

theorem emitted_nullOf (t : Ty) : Emitted s s' C (nullOf t) :=
  emitted_of_parts trivial (fun q hq => by cases hq) (fun q hq => by cases hq)
    fun c hc => by cases hc

theorem emitted_nullGuarded {guard build : Expr} (hg : Emitted s s' C guard)
    (hb : Emitted s s' C build) : Emitted s s' C (nullGuarded guard build) := by
  refine emitted_of_parts trivial (fun q hq => by cases hq) (fun q hq => by cases hq) fun c hc => ?_
  simp only [nullGuarded, children, List.mem_cons, List.not_mem_nil, or_false] at hc
  rcases hc with rfl | rfl | rfl
  · refine emitted_of_parts trivial (fun q hq => by cases hq) (fun q hq => by cases hq) fun c hc => ?_
    simp only [isNull, children, List.mem_cons, List.not_mem_nil, or_false] at hc
    rcases hc with rfl | rfl
    · exact hg
    · exact emitted_nullOf _
  · exact emitted_nullOf _
  · exact hb

theorem emitted_record {name : String} {fields : List (String × Expr)}
    (h : ∀ field ∈ fields, Emitted s s' C field.2) : Emitted s s' C (.record name fields) := by
  refine emitted_of_parts trivial (fun q hq => by cases hq) (fun q hq => by cases hq) fun c hc => ?_
  obtain ⟨field, hf, rfl⟩ := List.mem_map.mp hc
  exact h field hf

theorem emitted_letIn {p : Param} {value body : Expr} (hp : s.fresh ≤ p.id) (hlt : p.id < s'.fresh)
    (hb : p.id ∉ s'.boundIds) (hty : value.ty = p.ty) (hv : Emitted s s' C value)
    (hbody : Emitted s s' C body) : Emitted s s' C (.letIn p value body) := by
  refine emitted_of_parts hty (fun q hq => by cases hq; exact hlt)
    (fun q hq => by cases hq; exact ⟨hp, hb⟩) fun c hc => ?_
  simp only [children, List.mem_cons, List.not_mem_nil, or_false] at hc
  rcases hc with rfl | rfl
  · exact hv
  · exact hbody

theorem emitted_select {x : Param} {list body : Expr} (hx : s.fresh ≤ x.id) (hlt : x.id < s'.fresh)
    (hb : x.id ∉ s'.boundIds) (hty : list.ty.element? = some x.ty) (hl : Emitted s s' C list)
    (hbody : Emitted s s' C body) : Emitted s s' C (.select list x body) := by
  refine emitted_of_parts (fun u hu => Option.some.inj (hu.symm.trans hty))
    (fun q hq => by cases hq; exact hlt) (fun q hq => by cases hq; exact ⟨hx, hb⟩) fun c hc => ?_
  simp only [children, List.mem_cons, List.not_mem_nil, or_false] at hc
  rcases hc with rfl | rfl
  · exact hl
  · exact hbody

/-! ## Base expressions -/

namespace PlanState

def drawn (s : PlanState) (n : Nat) : PlanState := { s with fresh := n }

theorem grows_drawn {n : Nat} (h : s.fresh ≤ n) : s.Grows (s.drawn n) :=
  ⟨h, ⟨[], by simp [drawn]⟩, fun _ _ h => h⟩

theorem Good.drawn (h : s.Good) {n : Nat} (hn : s.fresh ≤ n) : (s.drawn n).Good :=
  ⟨fun b hb => Nat.lt_of_lt_of_le (h.below b hb) hn, h.nodup, h.params⟩

end PlanState

section Arranged

variable {item : Item} {base : Base} {a : Arrangement} {n : Nat}

theorem Based.emitted (based : Based low frame s' C item base) : Emitted s s' C base.expr where
  coherent := based.coherent
  below := based.below
  binders i hi := .inl (based.binders i hi)

theorem Arranged.emitted (arranged : Arranged config s'.fresh n base.expr a e) (good : s'.Good)
    (based : Based low frame s' C item base) (hs : s.Grows s') : Emitted s (s'.drawn n) C e where
  coherent := arranged.coherent
  below i hi := by
    rcases arranged.ids i hi with hi | ⟨-, hlt⟩
    · exact Nat.lt_of_lt_of_le (based.below i hi) arranged.drawn
    · exact hlt
  binders i hi := by
    rcases arranged.binders i hi with hi | ⟨hle, -⟩
    · exact .inl (based.binders i hi)
    · exact .inr ⟨Nat.le_trans hs.fresh hle, fun hb => absurd (good.boundIds_lt hb) (Nat.not_lt.mpr hle)⟩

/-- An arranged base expression is the value of its field. -/
theorem Arranged.reads (arranged : Arranged config s'.fresh n base.expr a e) (good : s'.Good)
    (based : Based low frame s' C item base) (admits : frame.Admits low s C) (hs : s.Grows s')
    (ha : (item.view frame C.ty).arrangement = some a) {final : PlanState}
    (hfinal : (s'.drawn n).Grows final) (covers : final.Covers e) :
    Reads config final C (item.view frame C.ty) base.expr e where
  own := by
    have grows := (PlanState.grows_drawn arranged.drawn).trans hfinal
    rw [Item.arguments_view]
    exact based.own final grows
  ty := based.ty
  arranged := ⟨a, ha, arranged.arranges⟩
  apart := (arranged.emitted good based hs).apart admits
    (hs.trans (PlanState.grows_drawn arranged.drawn)) hfinal
  covers := covers
  coherent := arranged.coherent

theorem addSkip_called (h : e.Called) (n : Option Nat) : (addSkip e n).Called := by
  match n with
  | none | some 0 => exact h
  | some (n + 1) => exact .slice _ _ _ (.inl rfl) h

theorem addTake_called (h : e.Called) (n : Option Nat) : (addTake e n).Called := by
  match n with
  | none => exact h
  | some n => exact .slice _ _ _ (.inr rfl) h

end Arranged

end FieldPlan
