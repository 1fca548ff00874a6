import FieldPlan.Proofs.Expr.Parts
import FieldPlan.Proofs.Renumbering
import Mathlib.Data.List.Basic

/-!
# Renumbered parameters

* `Param.renumber`, `Expr.renumber` : a parameter and an expression under new numbers;
* `Expr.renumber_self` : nothing changes where all numbers are below the bound;
* `Expr.ty_renumber`, `Expr.subterms_renumber`, `Expr.services_renumber`, `Expr.eqv_renumber`,
  `Expr.mentions_renumber` : types, parts, services and what depends on which parameters are the
  same are what they were.
-/

namespace FieldPlan

/-- A parameter under a new number. -/
def Param.renumber (ρ : Nat → Nat) (p : Param) : Param := { p with id := ρ p.id }

@[simp] theorem Param.renumber_id (ρ : Nat → Nat) (p : Param) : (p.renumber ρ).id = ρ p.id := rfl

@[simp] theorem Param.renumber_name (ρ : Nat → Nat) (p : Param) : (p.renumber ρ).name = p.name := rfl

@[simp] theorem Param.renumber_ty (ρ : Nat → Nat) (p : Param) : (p.renumber ρ).ty = p.ty := rfl

theorem Param.renumber_self {low : Nat} (ρ : Renumbering low) {p : Param} (h : p.id < low) :
    p.renumber ρ = p := by
  rw [Param.renumber, ρ.below _ h]

namespace Expr

mutual

/-- An expression under new numbers of parameters. -/
def renumber (ρ : Nat → Nat) : Expr → Expr
  | .param p => .param (p.renumber ρ)
  | .member target name t => .member (renumber ρ target) name t
  | .condition test a b => .condition (renumber ρ test) (renumber ρ a) (renumber ρ b)
  | .equal a b => .equal (renumber ρ a) (renumber ρ b)
  | .builtin f args => .builtin f (renumberList ρ args)
  | .invoke r m args t => .invoke (renumber ρ r) m (renumberList ρ args) t
  | .lambda p body => .lambda (p.renumber ρ) (renumber ρ body)
  | .record name fields => .record name (renumberFields ρ fields)
  | .select source p body => .select (renumber ρ source) (p.renumber ρ) (renumber ρ body)
  | .letIn p value body => .letIn (p.renumber ρ) (renumber ρ value) (renumber ρ body)
  | e => e

/-- A list of expressions under new numbers. -/
def renumberList (ρ : Nat → Nat) : List Expr → List Expr
  | [] => []
  | e :: es => renumber ρ e :: renumberList ρ es

/-- Named expressions under new numbers. -/
def renumberFields (ρ : Nat → Nat) : List (String × Expr) → List (String × Expr)
  | [] => []
  | (name, e) :: fields => (name, renumber ρ e) :: renumberFields ρ fields

end

section

variable (ρ : Nat → Nat)

@[simp] theorem renumberList_eq (es : List Expr) : renumberList ρ es = es.map (renumber ρ) := by
  induction es with
  | nil => rfl
  | cons e es ih => rw [renumberList, ih, List.map_cons]

@[simp] theorem renumberFields_eq (fields : List (String × Expr)) :
    renumberFields ρ fields = fields.map (Prod.map id (renumber ρ)) := by
  induction fields with
  | nil => rfl
  | cons field fields ih => rw [renumberFields, ih, List.map_cons]; rfl

/-! ## What does not depend on numbers -/

@[simp] theorem isNullLiteral_renumber (e : Expr) :
    (e.renumber ρ).isNullLiteral = e.isNullLiteral := by
  cases e <;> rfl

@[simp] theorem isConstruction_renumber (e : Expr) :
    (e.renumber ρ).isConstruction = e.isConstruction := by
  cases e <;> simp [renumber, isConstruction]

mutual

@[simp] theorem ty_renumber (e : Expr) : (e.renumber ρ).ty = e.ty := by
  match e with
  | .condition test a b => simp [renumber, ty, choiceTy, ty_renumber a, ty_renumber b]
  | .builtin f args => simp only [renumber, ty, headTy_renumber args]
  | .lambda p body => simp [renumber, ty, ty_renumber body]
  | .record name fields => simp only [renumber, ty, fieldTys_renumber fields]
  | .select source p body => simp [renumber, ty, ty_renumber body]
  | .letIn p value body => simp [renumber, ty, ty_renumber body]
  | .param _ | .constant _ _ | .null _ | .service _ | .member _ _ _ | .equal _ _
  | .invoke _ _ _ _ => simp [renumber, ty]

theorem headTy_renumber (es : List Expr) : headTy (renumberList ρ es) = headTy es := by
  match es with
  | [] => rfl
  | e :: _ => rw [renumberList, headTy, headTy, ty_renumber e]

theorem fieldTys_renumber (fields : List (String × Expr)) :
    fieldTys (renumberFields ρ fields) = fieldTys fields := by
  match fields with
  | [] => rfl
  | (name, e) :: rest =>
    rw [renumberFields, fieldTys, fieldTys, ty_renumber e, fieldTys_renumber rest]

end

@[simp] theorem children_renumber (e : Expr) :
    (e.renumber ρ).children = e.children.map (renumber ρ) := by
  cases e <;> simp [renumber, children, Function.comp_def]

theorem subterms_renumber (e : Expr) : (e.renumber ρ).subterms = e.subterms.map (renumber ρ) := by
  induction e using partwise with
  | h e ih =>
    rw [subterms_eq, subterms_eq e, children_renumber, List.map_cons, List.map_flatMap,
      List.flatMap_map]
    congr 1
    exact List.flatMap_congr ih

@[simp] theorem size_renumber (e : Expr) : (e.renumber ρ).size = e.size := by
  rw [size, subterms_renumber, List.length_map, size]

@[simp] theorem services_renumber (e : Expr) : (e.renumber ρ).services = e.services := by
  have handle : serviceName? ∘ renumber ρ = serviceName? := by
    funext x
    cases x <;> simp [renumber, serviceName?]
  rw [services, subterms_renumber, List.filterMap_map, handle, services]

theorem recordMember_renumber (target : Expr) (name : String) :
    (target.renumber ρ).recordMember? name = (target.recordMember? name).map (renumber ρ) := by
  unfold recordMember?
  rw [ty_renumber, Option.map_map]
  rfl

@[simp] theorem nullGuarded_renumber (guard build : Expr) :
    (nullGuarded guard build).renumber ρ = nullGuarded (guard.renumber ρ) (build.renumber ρ) := by
  simp [nullGuarded, isNull, nullOf, renumber]

end

/-! ## What depends on which parameters are the same -/

section

variable {low : Nat} (ρ : Renumbering low)

/-- Nothing changes where all numbers are below the bound. -/
theorem renumber_self {e : Expr} (h : ∀ i ∈ e.ids, i < low) : e.renumber ρ = e := by
  induction e using partwise with
  | h e ih =>
    have part : ∀ c ∈ e.children, c.renumber ρ = c := fun c hc =>
      ih c hc fun i hi => h i (ids_of_child hc hi)
    have own : ∀ p, e.own? = some p → p.renumber ρ = p := fun p hp =>
      Param.renumber_self ρ (h _ (mem_ids_iff.mpr (.inl ⟨p, hp, rfl⟩)))
    cases e with
    | param p => rw [renumber, own p rfl]
    | constant v t => rfl
    | null t => rfl
    | service s => rfl
    | member target name t => rw [renumber, part target (by simp [children])]
    | condition test a b =>
      rw [renumber, part test (by simp [children]), part a (by simp [children]),
        part b (by simp [children])]
    | equal a b => rw [renumber, part a (by simp [children]), part b (by simp [children])]
    | builtin f args =>
      rw [renumber, renumberList_eq]
      exact congrArg _ ((List.map_congr_left part).trans (List.map_id _))
    | invoke r m args t =>
      rw [renumber, part r (by simp [children]), renumberList_eq]
      have rest : ∀ a ∈ args, a.renumber ρ = a := fun a ha => part a (by simp [children, ha])
      rw [(List.map_congr_left rest).trans (List.map_id _)]
    | lambda p body => rw [renumber, own p rfl, part body (by simp [children])]
    | record name fields =>
      rw [renumber, renumberFields_eq]
      have rest : ∀ f ∈ fields, Prod.map id (renumber ρ) f = f := by
        rintro ⟨n, e⟩ hf
        exact Prod.ext rfl (part e (List.mem_map.mpr ⟨(n, e), hf, rfl⟩))
      rw [(List.map_congr_left rest).trans (List.map_id _)]
    | select source p body =>
      rw [renumber, own p rfl, part source (by simp [children]), part body (by simp [children])]
    | letIn p value body =>
      rw [renumber, own p rfl, part value (by simp [children]), part body (by simp [children])]

mutual

theorem eqv_renumber (a b : Expr) : eqv (a.renumber ρ) (b.renumber ρ) = eqv a b := by
  match a with
  | .param p => cases b <;> simp [renumber, eqv, BEq.beq, ρ.eq_iff]
  | .constant v s => cases b <;> simp [renumber, eqv]
  | .null s => cases b <;> simp [renumber, eqv]
  | .service s => cases b <;> simp [renumber, eqv]
  | .member t name s =>
    cases b with
    | member u _ _ => simp only [renumber, eqv, eqv_renumber t u]
    | _ => simp [renumber, eqv]
  | .condition t a₁ a₂ =>
    cases b with
    | condition u b₁ b₂ =>
      simp only [renumber, eqv, eqv_renumber t u, eqv_renumber a₁ b₁, eqv_renumber a₂ b₂]
    | _ => simp [renumber, eqv]
  | .equal a₁ a₂ =>
    cases b with
    | equal b₁ b₂ => simp only [renumber, eqv, eqv_renumber a₁ b₁, eqv_renumber a₂ b₂]
    | _ => simp [renumber, eqv]
  | .builtin f as =>
    cases b with
    | builtin g bs => simp only [renumber, eqv, eqvList_renumber as bs]
    | _ => simp [renumber, eqv]
  | .invoke r m as s =>
    cases b with
    | invoke q n bs t => simp only [renumber, eqv, eqv_renumber r q, eqvList_renumber as bs]
    | _ => simp [renumber, eqv]
  | .lambda p a =>
    cases b with
    | lambda q b => simp [renumber, eqv, eqv_renumber a b, ρ.eq_iff, BEq.beq]
    | _ => simp [renumber, eqv]
  | .record name fs =>
    cases b with
    | record _ gs => simp only [renumber, eqv, eqvFields_renumber fs gs]
    | _ => simp [renumber, eqv]
  | .select s p a =>
    cases b with
    | select t q b => simp [renumber, eqv, eqv_renumber s t, eqv_renumber a b, ρ.eq_iff, BEq.beq]
    | _ => simp [renumber, eqv]
  | .letIn p v a =>
    cases b with
    | letIn q w b => simp [renumber, eqv, eqv_renumber v w, eqv_renumber a b, ρ.eq_iff, BEq.beq]
    | _ => simp [renumber, eqv]

theorem eqvList_renumber (as bs : List Expr) :
    eqvList (renumberList ρ as) (renumberList ρ bs) = eqvList as bs := by
  match as, bs with
  | [], bs => cases bs <;> rfl
  | _ :: _, [] => rfl
  | a :: as, b :: bs =>
    rw [renumberList, renumberList, eqvList, eqvList, eqv_renumber a b, eqvList_renumber as bs]

theorem eqvFields_renumber (fs gs : List (String × Expr)) :
    eqvFields (renumberFields ρ fs) (renumberFields ρ gs) = eqvFields fs gs := by
  match fs, gs with
  | [], gs => cases gs <;> rfl
  | _ :: _, [] => rfl
  | (_, e) :: fs, (_, f) :: gs =>
    rw [renumberFields, renumberFields, eqvFields, eqvFields, eqv_renumber e f,
      eqvFields_renumber fs gs]

end

theorem beq_renumber (a b : Expr) : (a.renumber ρ == b.renumber ρ) = (a == b) := eqv_renumber ρ a b

theorem mentions_renumber (e : Expr) (p : Param) :
    (e.renumber ρ).mentions (p.renumber ρ) = e.mentions p := by
  have same : isParam (p.renumber ρ) ∘ renumber ρ = isParam p := by
    funext x
    cases x <;> simp [renumber, isParam, ρ.eq_iff, BEq.beq]
  rw [mentions, subterms_renumber, List.any_map, same, mentions]

end

end Expr

end FieldPlan
