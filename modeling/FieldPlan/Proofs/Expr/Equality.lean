import FieldPlan.Proofs.Expr.Swap
import FieldPlan.Proofs.Success

/-!
# Equal expressions

* `Expr.parts_of_eqv`, `Expr.ids_of_eqv` : equal expressions have equal parts and mention parameters
  of the same numbers;
* `Expr.Identified` : parameters of one number are one parameter;
* `Expr.sameFront_of_eqv` : equal expressions then have the same type;
* `Expr.replaceAll_self` : replacing expressions by themselves changes nothing.
-/

namespace FieldPlan

namespace Expr

theorem forall₂_of_eqvList {as bs : List Expr} (h : eqvList as bs = true) :
    List.Forall₂ (fun a b => eqv a b = true) as bs := by
  induction as generalizing bs with
  | nil =>
    cases bs <;> simp [eqvList] at h
    exact .nil
  | cons a as ih =>
    cases bs <;> simp [eqvList] at h
    exact .cons h.1 (ih h.2)

theorem forall₂_of_eqvFields {as bs : List (String × Expr)} (h : eqvFields as bs = true) :
    List.Forall₂ (fun a b => eqv a b = true) (as.map (·.2)) (bs.map (·.2)) := by
  induction as generalizing bs with
  | nil =>
    cases bs <;> simp [eqvFields] at h
    exact .nil
  | cons a as ih =>
    cases bs <;> simp [eqvFields] at h
    exact .cons h.1.2 (ih h.2)

/-- Expressions that are equal read and bind parameters of the same numbers, and so do their parts. -/
theorem parts_of_eqv {a b : Expr} (h : eqv a b = true) :
    a.own?.map (·.id) = b.own?.map (·.id) ∧
      List.Forall₂ (fun a b => eqv a b = true) a.children b.children := by
  cases a <;> cases b <;> simp [eqv] at h
  case builtin => exact ⟨rfl, forall₂_of_eqvList h.2⟩
  case invoke => exact ⟨rfl, .cons h.1.1.1 (forall₂_of_eqvList h.1.2)⟩
  case record => exact ⟨rfl, forall₂_of_eqvFields h.2⟩
  all_goals simp_all [own?, bound?, children]

theorem ids_of_eqv {a b : Expr} (h : eqv a b = true) {i : Nat} : i ∈ a.ids ↔ i ∈ b.ids := by
  induction a using partwise generalizing b with
  | h a ih =>
    obtain ⟨own, parts⟩ := parts_of_eqv h
    have here : (∃ p, a.own? = some p ∧ p.id = i) ↔ ∃ p, b.own? = some p ∧ p.id = i := by
      rw [← Option.map_eq_some_iff, own, Option.map_eq_some_iff]
    have below : (∃ c ∈ a.children, i ∈ c.ids) ↔ ∃ d ∈ b.children, i ∈ d.ids := by
      constructor
      · rintro ⟨c, hc, hi⟩
        obtain ⟨d, hd, hcd⟩ := exists_of_forall₂ parts.flip hc
        exact ⟨d, hd, (ih c hc hcd).mp hi⟩
      · rintro ⟨d, hd, hi⟩
        obtain ⟨c, hc, hcd⟩ := exists_of_forall₂ parts hd
        exact ⟨c, hc, (ih c hc hcd).mpr hi⟩
    rw [mem_ids_iff, mem_ids_iff, here, below]

/-! ## One parameter for each number -/

/-- Parameters of the two expressions that have one number are one parameter. -/
def Identify (a b : Expr) : Prop :=
  ∀ x ∈ a.subterms, ∀ y ∈ b.subterms, ∀ p q, x.own? = some p → y.own? = some q → p.id = q.id → p = q

/-- Parameters of the expressions that have one number are one parameter. -/
def Identified (es : List Expr) : Prop := ∀ a ∈ es, ∀ b ∈ es, a.Identify b

theorem Identify.children {a b c d : Expr} (h : a.Identify b) (hc : c ∈ a.children)
    (hd : d ∈ b.children) : c.Identify d :=
  fun x hx y hy => h x (mem_subterms_of_child hc hx) y (mem_subterms_of_child hd hy)

theorem Identify.own {a b : Expr} (h : a.Identify b) {p q : Param} (hp : a.own? = some p)
    (hq : b.own? = some q) (same : p.id = q.id) : p = q :=
  h a (self_mem_subterms a) b (self_mem_subterms b) p q hp hq same

theorem isNullLiteral_of_eqv {a b : Expr} (h : eqv a b = true) :
    b.isNullLiteral = a.isNullLiteral := by
  cases a <;> cases b <;> simp [eqv] at h <;> rfl

theorem headTy_of_eqv {as bs : List Expr} (h : eqvList as bs = true)
    (ih : ∀ a ∈ as, ∀ b ∈ bs, eqv a b = true → b.ty = a.ty) : headTy bs = headTy as := by
  cases as <;> cases bs <;> simp [eqvList] at h
  · rfl
  · exact ih _ List.mem_cons_self _ List.mem_cons_self h.1

theorem fieldTys_of_eqv {fs gs : List (String × Expr)} (h : eqvFields fs gs = true)
    (ih : ∀ a ∈ fs.map (·.2), ∀ b ∈ gs.map (·.2), eqv a b = true → b.ty = a.ty) :
    fieldTys gs = fieldTys fs := by
  induction fs generalizing gs with
  | nil => cases gs <;> simp [eqvFields] at h; rfl
  | cons f fs rest =>
    cases gs <;> simp [eqvFields] at h
    have first := ih _ List.mem_cons_self _ List.mem_cons_self h.1.2
    have others := rest h.2 fun a ha b hb =>
      ih a (List.mem_cons_of_mem _ ha) b (List.mem_cons_of_mem _ hb)
    rw [fieldTys, fieldTys, first, others, h.1.1]

/-- Equal expressions have the same type when a number stands for one parameter. -/
theorem ty_of_eqv {a b : Expr} (h : eqv a b = true) (one : a.Identify b) : b.ty = a.ty := by
  induction a using partwise generalizing b with
  | h a ih =>
    have part : ∀ c ∈ a.children, ∀ d ∈ b.children, eqv c d = true → d.ty = c.ty :=
      fun c hc d hd hcd => ih c hc hcd (one.children hc hd)
    cases a <;> cases b <;> simp only [eqv, Bool.and_eq_true, beq_iff_eq, Bool.false_eq_true] at h
    case param p q => rw [one.own rfl rfl h]
    case constant | null => simp_all [Expr.ty]
    case service => rw [h]
    case member => rw [Expr.ty, Expr.ty, h.2]
    case condition =>
      simp only [children, List.forall_mem_cons] at part
      have left := part.2.1.2.1 h.1.2
      have right := part.2.2.1.2.2.1 h.2
      rw [Expr.ty, Expr.ty, left, right, choiceTy, choiceTy, isNullLiteral_of_eqv h.1.2,
        isNullLiteral_of_eqv h.2]
    case equal => rfl
    case builtin => rw [Expr.ty, Expr.ty, h.1, headTy_of_eqv h.2 part]
    case invoke => rw [Expr.ty, Expr.ty, h.2]
    case lambda => rw [Expr.ty, Expr.ty, part _ List.mem_cons_self _ List.mem_cons_self h.2]
    case record => rw [Expr.ty, Expr.ty, h.1, fieldTys_of_eqv h.2 part]
    case select =>
      simp only [children, List.forall_mem_cons] at part
      rw [Expr.ty, Expr.ty, part.2.1.2.1 h.2]
    case letIn =>
      simp only [children, List.forall_mem_cons] at part
      exact part.2.1.2.1 h.2

/-- Equal expressions pass on the same when a number stands for one parameter. -/
theorem sameFront_of_eqv {a b : Expr} (h : eqv a b = true) (one : a.Identify b) :
    b.SameFront a := by
  refine ⟨(ty_of_eqv h one).symm, (isNullLiteral_of_eqv h).symm, ?_⟩
  cases a <;> cases b <;> simp [eqv] at h
  case lambda => exact congrArg some (one.own rfl rfl h.1)
  all_goals rfl

/-! ## Replacing expressions by themselves -/

theorem eqvList_map {g : Expr → Expr} {es : List Expr} (h : ∀ c ∈ es, eqv (g c) c = true) :
    eqvList (es.map g) es = true := by
  induction es with
  | nil => rfl
  | cons e es ih =>
    obtain ⟨first, rest⟩ := List.forall_mem_cons.mp h
    rw [List.map_cons, eqvList, first, ih rest]
    rfl

theorem eqvFields_map {g : Expr → Expr} {fields : List (String × Expr)}
    (h : ∀ c ∈ fields.map (·.2), eqv (g c) c = true) :
    eqvFields (fields.map fun field => (field.1, g field.2)) fields = true := by
  induction fields with
  | nil => rfl
  | cons field fields ih =>
    obtain ⟨first, rest⟩ := List.forall_mem_cons.mp h
    simp [eqvFields, first, ih rest]

theorem eqv_mapParts {g : Expr → Expr} {e : Expr} (he : e.Fits)
    (hg : ∀ c ∈ e.children, eqv (g c) c = true ∧ (g c).ty = c.ty) :
    eqv (e.mapParts g) e = true := by
  cases e with
  | member t name ty =>
    obtain ⟨same, front⟩ := hg t List.mem_cons_self
    rw [mapParts, eqv, same, front]
    cases h : t.ty.member? name with
    | none => simp
    | some u => simp [he u h]
  | builtin f args =>
    have same : eqvList (args.map g) args = true := eqvList_map fun c hc => (hg c hc).1
    simp [mapParts, eqv, same]
  | invoke r m args t =>
    obtain ⟨receiver, others⟩ := List.forall_mem_cons.mp hg
    simp [mapParts, eqv, receiver.1, eqvList_map fun c hc => (others c hc).1]
  | record name fields => simp [mapParts, eqv, eqvFields_map fun c hc => (hg c hc).1]
  | param | constant | null | service => exact eqv_refl _
  | _ => simp_all [mapParts, eqv, children]

theorem eqv_swap {f : Expr → Option Expr} {e : Expr} (he : e.Coherent)
    (hf : ∀ x ∈ e.subterms, ∀ r, f x = some r → eqv r x = true ∧ x.SameFront r) :
    eqv (e.swap f) e = true ∧ e.SameFront (e.swap f) := by
  induction e using partwise with
  | h e ih =>
    cases hr : f e with
    | some r =>
      rw [swap_some hr]
      exact hf e (self_mem_subterms e) r hr
    | none =>
      have fits := he e (self_mem_subterms e)
      have part : ∀ c ∈ e.children, eqv (c.swap f) c = true ∧ c.SameFront (c.swap f) := fun c hc =>
        ih c hc (he.child hc) fun x hx => hf x (mem_subterms_of_child hc hx)
      rw [swap_none hr]
      exact ⟨eqv_mapParts fits fun c hc => ⟨(part c hc).1, (part c hc).2.1⟩,
        sameFront_mapParts fits fun c hc => (part c hc).2⟩

theorem Identified.subterm {e x p : Expr} {es : List Expr} (h : Identified (e :: es))
    (hx : x ∈ e.subterms) (hp : p ∈ es) : p.Identify x := fun z hz y hy =>
  h p (List.mem_cons_of_mem _ hp) e List.mem_cons_self z hz y (subterms_trans hx hy)

/-- Replacing expressions by themselves gives an equal expression. -/
theorem replaceAll_self {pairs : List (Expr × Expr)} {e : Expr} (he : e.Coherent)
    (self : ∀ pair ∈ pairs, pair.2 = pair.1) (one : Identified (e :: pairs.map (·.1))) :
    ∃ d, e.replaceAll pairs = pure d ∧ (d == e) = true := by
  have same : ∀ x ∈ e.subterms, ∀ r, Rule.pick pairs x = some r → eqv r x = true ∧ x.SameFront r := by
    intro x hx r hr
    obtain ⟨pair, hfind, rfl⟩ := Option.map_eq_some_iff.mp hr
    have hpair := List.mem_of_find?_eq_some hfind
    have equal : (pair.1 == x) = true := by simpa using List.find?_some hfind
    rw [self pair hpair]
    exact ⟨equal, sameFront_of_eqv equal (one.subterm hx (List.mem_map_of_mem hpair))⟩
  have steady : e.Steady (Rule.pick pairs) := fun x hx _ =>
    fits_mapParts (he x hx) fun c hc => (eqv_swap ((he.subterm hx).child hc) fun y hy =>
      same y (subterms_trans hx (mem_subterms_of_child hc hy))).2
  exact ⟨_, replaceAll_eq he steady, (eqv_swap he same).1⟩

end Expr

end FieldPlan
