import FieldPlan.Proofs.Expr.Calls
import FieldPlan.Proofs.Expr.Loose
import FieldPlan.Proofs.Expr.Served

/-!
# Scopes of expressions

Parameters stand for values or for services. An expression is in scope when all it reads are
parameters for values, and all it calls are parameters for services.

* `Expr.Scoped` : an expression in scope, `Expr.Scoped.swap` : parameters put in place of its parts;
* `Expr.Scoped.free`, `Expr.Scoped.unserved`, `Expr.Scoped.receiver`, `Expr.Scoped.operand` : its free
  parameters, and what it calls and reads.
-/

namespace FieldPlan

namespace Expr

/-- Neither a parameter, nor the handle of a service, nor a call. -/
def Neutral : Expr → Prop
  | .param _ | .service _ | .invoke _ _ _ _ => False
  | _ => True

/-- The parts whose values an expression takes: all but the service that a call goes to. -/
def operands : Expr → List Expr
  | .invoke _ _ args _ => args
  | e => e.children

/-- Reads only parameters in `V` or bound around, and calls only parameters in `S`, none of which is
bound inside. -/
inductive Scoped (S : Nat → Prop) : (Nat → Prop) → Expr → Prop
  | value {V : Nat → Prop} {p : Param} : V p.id → Scoped S V (.param p)
  | call {V : Nat → Prop} {p : Param} {method : String} {args : List Expr} {t : Ty} :
    S p.id → (∀ a ∈ args, Scoped S V a) → Scoped S V (.invoke (.param p) method args t)
  | parts {V : Nat → Prop} {e : Expr} : e.Neutral → (∀ x ∈ e.parts [], ∀ q ∈ x.1, ¬S q.id) →
    (∀ x ∈ e.parts [], Scoped S (fun i => V i ∨ ∃ q ∈ x.1, q.id = i) x.2) → Scoped S V e

variable {S V W : Nat → Prop} {e : Expr}

theorem Neutral.mapParts (h : e.Neutral) (g : Expr → Expr) : (e.mapParts g).Neutral := by
  cases e <;> trivial

theorem Neutral.own_eq (h : e.Neutral) : e.own? = e.bound? := by
  cases e <;> first | rfl | cases h

theorem exists_part_of_child {c : Expr} (h : c ∈ e.children) : ∃ x ∈ e.parts [], x.2 = c := by
  cases e <;> simp_all [Expr.parts, children] <;> grind

theorem exists_part_of_bound {p : Param} (h : e.bound? = some p) : ∃ x ∈ e.parts [], p ∈ x.1 := by
  cases e <;> simp_all [Expr.parts, bound?]

theorem Scoped.mono (h : Scoped S V e) (hVW : ∀ i, V i → W i) : Scoped S W e := by
  induction h generalizing W with
  | value hp => exact .value (hVW _ hp)
  | call hp _ ih => exact .call hp fun a ha => ih a ha hVW
  | parts hn hb _ ih => exact .parts hn hb fun x hx => ih x hx fun i hi => hi.imp_left (hVW i)

/-! ## Building -/

theorem scoped_of_children (hn : e.Neutral) (hb : e.bound? = none)
    (h : ∀ c ∈ e.children, Scoped S V c) : Scoped S V e := by
  have unbound : ∀ x ∈ e.parts [], x.1 = [] ∧ x.2 ∈ e.children := by
    intro x hx
    cases e <;> simp_all [bound?, Expr.parts, children] <;> grind
  refine .parts hn (fun x hx q hq => ?_) fun x hx => ?_
  · rw [(unbound x hx).1] at hq
    cases hq
  · exact (h _ (unbound x hx).2).mono fun _ => .inl

theorem scoped_lambda {x : Param} {b : Expr} (hx : ¬S x.id)
    (hb : Scoped S (fun i => V i ∨ i = x.id) b) : Scoped S V (.lambda x b) := by
  refine .parts trivial (fun y hy q hq => ?_) fun y hy => ?_ <;> cases List.mem_singleton.mp hy
  · cases List.mem_singleton.mp hq
    exact hx
  · exact hb.mono fun i hi => hi.imp_right fun h => ⟨x, List.mem_singleton.mpr rfl, h.symm⟩

theorem scoped_select {x : Param} {s b : Expr} (hs : Scoped S V s) (hx : ¬S x.id)
    (hb : Scoped S (fun i => V i ∨ i = x.id) b) : Scoped S V (.select s x b) := by
  refine .parts trivial (fun y hy q hq => ?_) fun y hy => ?_ <;>
    rcases List.mem_cons.mp hy with rfl | hy <;> try cases List.mem_singleton.mp hy
  · cases hq
  · cases List.mem_singleton.mp hq
    exact hx
  · exact hs.mono fun _ => .inl
  · exact hb.mono fun i hi => hi.imp_right fun h => ⟨x, List.mem_singleton.mpr rfl, h.symm⟩

theorem scoped_letIn {x : Param} {v b : Expr} (hv : Scoped S V v) (hx : ¬S x.id)
    (hb : Scoped S (fun i => V i ∨ i = x.id) b) : Scoped S V (.letIn x v b) := by
  refine .parts trivial (fun y hy q hq => ?_) fun y hy => ?_ <;>
    rcases List.mem_cons.mp hy with rfl | hy <;> try cases List.mem_singleton.mp hy
  · cases hq
  · cases List.mem_singleton.mp hq
    exact hx
  · exact hv.mono fun _ => .inl
  · exact hb.mono fun i hi => hi.imp_right fun h => ⟨x, List.mem_singleton.mpr rfl, h.symm⟩

theorem scoped_nullOf (t : Ty) : Scoped S V (nullOf t) :=
  scoped_of_children trivial rfl (by simp [nullOf, children])

theorem scoped_nullGuarded {guard build : Expr} (hg : Scoped S V guard) (hb : Scoped S V build) :
    Scoped S V (.nullGuarded guard build) := by
  have test : Scoped S V (isNull guard) :=
    scoped_of_children trivial rfl (by simp [isNull, children, hg, scoped_nullOf])
  exact scoped_of_children trivial rfl (by simp [nullGuarded, children, test, hb, scoped_nullOf])

theorem scoped_record {name : String} {fields : List (String × Expr)}
    (h : ∀ field ∈ fields, Scoped S V field.2) : Scoped S V (.record name fields) := by
  refine scoped_of_children trivial rfl fun c hc => ?_
  obtain ⟨field, hf, rfl⟩ := List.mem_map.mp hc
  exact h field hf

/-- Parameters in scope put in place of parts that are no parameters. -/
theorem Scoped.swap {f : Expr → Option Expr} (h : Scoped S V e)
    (hf : ∀ x r, f x = some r → ∃ q, r = .param q ∧ V q.id) (hp : ∀ p, f (.param p) = none) :
    Scoped S V (e.swap f) := by
  have put : ∀ {V : Nat → Prop} {e : Expr}, (∀ x r, f x = some r → ∃ q, r = .param q ∧ V q.id) →
      (f e = none → Scoped S V (e.mapParts (Expr.swap f))) → Scoped S V (e.swap f) := by
    intro V e hf hnone
    cases hr : f e with
    | some r =>
      obtain ⟨q, rfl, hq⟩ := hf e r hr
      rw [swap_some hr]
      exact .value hq
    | none =>
      rw [swap_none hr]
      exact hnone hr
  induction h with
  | value hv => exact put hf fun _ => .value hv
  | @call _ p _ args _ hs _ ih =>
    refine put hf fun _ => ?_
    rw [Expr.mapParts, swap_leaf rfl (hp p)]
    refine .call hs fun a ha => ?_
    obtain ⟨b, hb, rfl⟩ := List.mem_map.mp ha
    exact ih b hb hf
  | @parts _ e hn hb _ ih =>
    refine put hf fun _ => ?_
    have swapped := parts_mapParts (Expr.swap f) e []
    refine .parts (hn.mapParts _) (fun x hx => ?_) fun x hx => ?_ <;>
      (rw [swapped] at hx; obtain ⟨y, hy, rfl⟩ := List.mem_map.mp hx)
    · exact hb y hy
    · exact ih y hy fun x r hr => (hf x r hr).imp fun q hq => ⟨hq.1, .inl hq.2⟩

/-! ## Reading off -/

/-- What is free is read or called. -/
theorem Scoped.free {p : Param} (h : Scoped S V e) (hp : Loose (fun _ => False) p e) :
    V p.id ∨ S p.id := by
  induction hp generalizing V with
  | here =>
    cases h with
    | value hv => exact .inl hv
    | parts hn => cases hn
  | @part e x _ hx hq hl ih =>
    cases h with
    | value => cases hx
    | call hs hargs =>
      obtain ⟨c, hc, rfl⟩ := List.mem_map.mp hx
      rcases List.mem_cons.mp hc with rfl | hc
      · cases loose_param hl
        exact .inr hs
      · exact ih (hargs c hc)
    | parts hn hb hparts =>
      rcases ih (hparts x hx) with (hv | ⟨q, hmem, h⟩) | hs
      · exact .inl hv
      · exact absurd h (hq q hmem)
      · exact .inr hs

/-- What holds of all expressions in scope holds of all parts. -/
theorem Scoped.everywhere {P : Expr → Prop} (h : Scoped S V e) (apart : ∀ i, V i → ¬S i)
    (params : ∀ p, P (.param p))
    (inside : ∀ {W : Nat → Prop} {x : Expr}, (∀ i, W i → ¬S i) → Scoped S W x → P x) :
    ∀ x ∈ e.subterms, P x := by
  induction h with
  | @value _ p hv =>
    intro x hx
    simp only [subterms, List.mem_singleton] at hx
    exact hx ▸ params p
  | @call _ p m args t hs hargs ih =>
    intro x hx
    rcases mem_subterms.mp hx with rfl | ⟨c, hc, hx⟩
    · exact inside apart (.call hs hargs)
    · rcases List.mem_cons.mp hc with rfl | hc
      · simp only [subterms, List.mem_singleton] at hx
        exact hx ▸ params p
      · exact ih c hc apart x hx
  | @parts V e hn hb hparts ih =>
    intro x hx
    rcases mem_subterms.mp hx with rfl | ⟨c, hc, hx⟩
    · exact inside apart (.parts hn hb hparts)
    · obtain ⟨y, hy, rfl⟩ := exists_part_of_child hc
      refine ih y hy (fun i hi => ?_) x hx
      rcases hi with hi | ⟨q, hq, rfl⟩
      · exact apart i hi
      · exact hb y hy q hq

variable (h : Scoped S V e) (apart : ∀ i, V i → ¬S i)

include h apart

/-- No handle of a service is left. -/
theorem Scoped.unserved : ¬e.Served := by
  rintro ⟨name, hn⟩
  refine h.everywhere (P := fun x => x ≠ .service name) apart nofun ?_ _ hn rfl
  rintro W x - hx rfl
  cases hx with
  | parts hn => cases hn

/-- No parameter for a service is bound inside. -/
theorem Scoped.binder {i : Nat} (hi : i ∈ e.binders) : ¬S i := by
  obtain ⟨x, hx, p, hp, rfl⟩ := mem_binders.mp hi
  refine h.everywhere (P := fun x => x.bound? = some p → ¬S p.id) apart nofun ?_ x hx hp
  intro W x _ hx hp
  cases hx with
  | value => cases hp
  | call => cases hp
  | parts _ hb _ =>
    obtain ⟨y, hy, hmem⟩ := exists_part_of_bound hp
    exact hb y hy p hmem

/-- Calls go to parameters for services. -/
theorem Scoped.receiver {r : Expr} {method : String} {args : List Expr} {t : Ty}
    (hr : .invoke r method args t ∈ e.subterms) : ∃ p, r = .param p ∧ S p.id := by
  refine h.everywhere (P := fun x => x = .invoke r method args t → ∃ p, r = .param p ∧ S p.id) apart
    nofun ?_ _ hr rfl
  rintro W x - hx rfl
  cases hx with
  | call hs => exact ⟨_, rfl, hs⟩
  | parts hn => cases hn

/-- The value of a parameter for a service is not taken. -/
theorem Scoped.operand {x : Expr} {p : Param} (hx : x ∈ e.subterms) (hp : .param p ∈ x.operands) :
    ¬S p.id := by
  refine h.everywhere (P := fun x => .param p ∈ x.operands → ¬S p.id) apart nofun ?_ _ hx hp
  intro W x apart hx hp
  have value : ∀ {W : Nat → Prop}, (∀ i, W i → ¬S i) → Scoped S W (.param p) → ¬S p.id := by
    intro W apart h
    cases h with
    | value hv => exact apart _ hv
    | parts hn => cases hn
  cases hx with
  | value => cases hp
  | call _ hargs => exact value apart (hargs _ hp)
  | parts hn hb hparts =>
    have child : .param p ∈ x.children := by
      cases x <;> first | exact hp | cases hn
    obtain ⟨y, hy, hyp⟩ := exists_part_of_child child
    refine value ?_ (hyp ▸ hparts y hy)
    rintro i (hi | ⟨q, hq, rfl⟩)
    · exact apart i hi
    · exact hb y hy q hq

/-- A parameter for a service that occurs is called. -/
theorem Scoped.called {i : Nat} (hi : S i) (hmem : i ∈ e.ids) :
    ∃ p method args t, p.id = i ∧ .invoke (.param p) method args t ∈ e.subterms := by
  induction h with
  | @value _ p hv =>
    obtain rfl : i = p.id := by simpa [ids, subterms, own?] using hmem
    exact absurd hi (apart _ hv)
  | @call _ p method args t hs hargs ih =>
    rcases mem_ids_iff.mp hmem with ⟨q, hq, -⟩ | ⟨c, hc, hic⟩
    · cases hq
    · rcases List.mem_cons.mp hc with rfl | hc'
      · obtain rfl : i = p.id := by simpa [ids, subterms, own?] using hic
        exact ⟨p, method, args, t, rfl, self_mem_subterms _⟩
      · obtain ⟨q, m, as, u, hq, hx⟩ := ih c hc' apart hic
        exact ⟨q, m, as, u, hq, mem_subterms_of_child hc hx⟩
  | @parts V e hn hb hparts ih =>
    rcases mem_ids_iff.mp hmem with ⟨q, hq, rfl⟩ | ⟨c, hc, hic⟩
    · rw [hn.own_eq] at hq
      obtain ⟨y, hy, hmem⟩ := exists_part_of_bound hq
      exact absurd hi (hb y hy q hmem)
    · obtain ⟨y, hy, rfl⟩ := exists_part_of_child hc
      obtain ⟨q, m, as, u, hq, hx⟩ := ih y hy (by
        rintro i (hi | ⟨q, hq, rfl⟩)
        · exact apart i hi
        · exact hb y hy q hq) hic
      exact ⟨q, m, as, u, hq, mem_subterms_of_child hc hx⟩

end Expr

end FieldPlan
