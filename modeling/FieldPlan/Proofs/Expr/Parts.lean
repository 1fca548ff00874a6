import FieldPlan.Expr.Replacement

/-!
# Parts of expressions

* `Expr.partwise` : induction over the direct parts;
* `Expr.subterms_eq` : the parts in terms of the direct parts, `Expr.subterms_trans`;
* `Expr.Own`, `Expr.ids`, `Expr.binders` : the numbers of the parameters that occur, and of those
  that are bound;
* `Expr.mapParts`, `Expr.swap` : a function applied to the direct parts, and the replacement of the
  topmost parts on which a function has an answer.
-/

namespace FieldPlan

namespace Expr

/-! ## Induction -/

section Induction

variable {P : Expr → Prop}

mutual

theorem partwise (h : ∀ e, (∀ c ∈ e.children, P c) → P e) (e : Expr) : P e := by
  apply h
  match e with
  | .param _ | .constant _ _ | .null _ | .service _ => simp [children]
  | .member t _ _ => simp [children, partwise h t]
  | .condition a b c => simp [children, partwise h a, partwise h b, partwise h c]
  | .equal a b => simp [children, partwise h a, partwise h b]
  | .builtin _ args => exact partwiseList h args
  | .invoke r _ args _ => simpa [children, partwise h r] using partwiseList h args
  | .lambda _ b => simp [children, partwise h b]
  | .record _ fields => simpa [children] using partwiseFields h fields
  | .select s _ b => simp [children, partwise h s, partwise h b]
  | .letIn _ v b => simp [children, partwise h v, partwise h b]

theorem partwiseList (h : ∀ e, (∀ c ∈ e.children, P c) → P e) (es : List Expr) :
    ∀ c ∈ es, P c := by
  match es with
  | [] => simp
  | e :: es => simpa [partwise h e] using partwiseList h es

theorem partwiseFields (h : ∀ e, (∀ c ∈ e.children, P c) → P e) (fields : List (String × Expr)) :
    ∀ c name, (name, c) ∈ fields → P c := by
  match fields with
  | [] => simp
  | (n, e) :: fields =>
    intro c name hc
    rcases List.mem_cons.mp hc with hc | hc
    · obtain ⟨-, rfl⟩ := Prod.mk.inj hc
      exact partwise h c
    · exact partwiseFields h fields c name hc

end

end Induction

/-! ## Parts -/

theorem subtermsList_eq (es : List Expr) : subtermsList es = es.flatMap subterms := by
  induction es with
  | nil => rfl
  | cons e es ih => simp [subtermsList, ih]

theorem subtermsFields_eq (fields : List (String × Expr)) :
    subtermsFields fields = (fields.map (·.2)).flatMap subterms := by
  induction fields with
  | nil => rfl
  | cons field fields ih => simp [subtermsFields, ih]

theorem subterms_eq (e : Expr) : e.subterms = e :: e.children.flatMap subterms := by
  cases e <;> simp [subterms, children, subtermsList_eq, subtermsFields_eq]

theorem mem_subterms {e x : Expr} :
    x ∈ e.subterms ↔ x = e ∨ ∃ c ∈ e.children, x ∈ c.subterms := by
  rw [subterms_eq, List.mem_cons, List.mem_flatMap]

theorem self_mem_subterms (e : Expr) : e ∈ e.subterms := mem_subterms.mpr (.inl rfl)

theorem mem_subterms_of_child {e c x : Expr} (hc : c ∈ e.children) (hx : x ∈ c.subterms) :
    x ∈ e.subterms := mem_subterms.mpr (.inr ⟨c, hc, hx⟩)

theorem subterms_trans {e x y : Expr} (hx : x ∈ e.subterms) (hy : y ∈ x.subterms) :
    y ∈ e.subterms := by
  induction e using partwise with
  | h e ih =>
    rcases mem_subterms.mp hx with rfl | ⟨c, hc, hx⟩
    · exact hy
    · exact mem_subterms_of_child hc (ih c hc hx)

/-! ## Numbers of parameters -/

/-- The parameter that an expression itself binds. -/
def bound? : Expr → Option Param
  | .lambda p _ | .select _ p _ | .letIn p _ _ => some p
  | _ => none

/-- The parameter that an expression itself is or binds. -/
def own? : Expr → Option Param
  | .param p => some p
  | e => e.bound?

theorem isParam_iff {x : Expr} {p : Param} :
    x.isParam p = true ↔ ∃ q, x = .param q ∧ q.id = p.id := by
  cases x <;> simp [isParam]

theorem mentions_iff {e : Expr} {p : Param} :
    e.mentions p = true ↔ ∃ q : Param, .param q ∈ e.subterms ∧ q.id = p.id := by
  unfold mentions
  rw [List.any_eq_true]
  constructor
  · rintro ⟨x, hx, h⟩
    obtain ⟨q, rfl, hq⟩ := isParam_iff.mp h
    exact ⟨q, hx, hq⟩
  · rintro ⟨q, hx, hq⟩
    exact ⟨_, hx, isParam_iff.mpr ⟨q, rfl, hq⟩⟩

def ids (e : Expr) : List Nat := e.subterms.filterMap fun x => x.own?.map (·.id)

def binders (e : Expr) : List Nat := e.subterms.filterMap fun x => x.bound?.map (·.id)

theorem mem_ids {e : Expr} {i : Nat} :
    i ∈ e.ids ↔ ∃ x ∈ e.subterms, ∃ p, x.own? = some p ∧ p.id = i := by
  simp [ids, List.mem_filterMap]

theorem mem_binders {e : Expr} {i : Nat} :
    i ∈ e.binders ↔ ∃ x ∈ e.subterms, ∃ p, x.bound? = some p ∧ p.id = i := by
  simp [binders, List.mem_filterMap]

theorem own_of_bound {e : Expr} {p : Param} (h : e.bound? = some p) : e.own? = some p := by
  cases e <;> simp_all [own?, bound?]

theorem ids_of_binders {e : Expr} {i : Nat} (h : i ∈ e.binders) : i ∈ e.ids := by
  obtain ⟨x, hx, p, hp, rfl⟩ := mem_binders.mp h
  exact mem_ids.mpr ⟨x, hx, p, own_of_bound hp, rfl⟩

theorem ids_of_subterm {e x : Expr} (hx : x ∈ e.subterms) {i : Nat} (h : i ∈ x.ids) : i ∈ e.ids := by
  obtain ⟨y, hy, h⟩ := mem_ids.mp h
  exact mem_ids.mpr ⟨y, subterms_trans hx hy, h⟩

theorem binders_of_subterm {e x : Expr} (hx : x ∈ e.subterms) {i : Nat} (h : i ∈ x.binders) :
    i ∈ e.binders := by
  obtain ⟨y, hy, h⟩ := mem_binders.mp h
  exact mem_binders.mpr ⟨y, subterms_trans hx hy, h⟩

theorem ids_of_child {e c : Expr} (hc : c ∈ e.children) {i : Nat} (h : i ∈ c.ids) : i ∈ e.ids :=
  ids_of_subterm (mem_subterms_of_child hc (self_mem_subterms c)) h

theorem mem_ids_iff {e : Expr} {i : Nat} :
    i ∈ e.ids ↔ (∃ p, e.own? = some p ∧ p.id = i) ∨ ∃ c ∈ e.children, i ∈ c.ids := by
  constructor
  · intro h
    obtain ⟨x, hx, p, hp, rfl⟩ := mem_ids.mp h
    rcases mem_subterms.mp hx with rfl | ⟨c, hc, hx⟩
    · exact .inl ⟨p, hp, rfl⟩
    · exact .inr ⟨c, hc, mem_ids.mpr ⟨x, hx, p, hp, rfl⟩⟩
  · rintro (⟨p, hp, rfl⟩ | ⟨c, hc, h⟩)
    · exact mem_ids.mpr ⟨e, self_mem_subterms e, p, hp, rfl⟩
    · exact ids_of_child hc h

theorem mem_binders_iff {e : Expr} {i : Nat} :
    i ∈ e.binders ↔ (∃ p, e.bound? = some p ∧ p.id = i) ∨ ∃ c ∈ e.children, i ∈ c.binders := by
  constructor
  · intro h
    obtain ⟨x, hx, p, hp, rfl⟩ := mem_binders.mp h
    rcases mem_subterms.mp hx with rfl | ⟨c, hc, hx⟩
    · exact .inl ⟨p, hp, rfl⟩
    · exact .inr ⟨c, hc, mem_binders.mpr ⟨x, hx, p, hp, rfl⟩⟩
  · rintro (⟨p, hp, rfl⟩ | ⟨c, hc, h⟩)
    · exact mem_binders.mpr ⟨e, self_mem_subterms e, p, hp, rfl⟩
    · exact binders_of_subterm (mem_subterms_of_child hc (self_mem_subterms c)) h

/-! ## Swapping parts -/

/-- A function applied to the direct parts; an access to a member of a record takes the member's
type. -/
def mapParts (g : Expr → Expr) : Expr → Expr
  | .member t name ty => .member (g t) name (((g t).ty.member? name).getD ty)
  | .condition a b c => .condition (g a) (g b) (g c)
  | .equal a b => .equal (g a) (g b)
  | .builtin f args => .builtin f (args.map g)
  | .invoke r m args ty => .invoke (g r) m (args.map g) ty
  | .lambda p b => .lambda p (g b)
  | .record name fields => .record name (fields.map fun field => (field.1, g field.2))
  | .select s p b => .select (g s) p (g b)
  | .letIn p v b => .letIn p (g v) (g b)
  | e => e

mutual

/-- Replaces the topmost parts on which `f` has an answer. -/
def swap (f : Expr → Option Expr) : Expr → Expr
  | .member t name ty =>
    (f (.member t name ty)).getD
      (.member (swap f t) name (((swap f t).ty.member? name).getD ty))
  | .condition a b c => (f (.condition a b c)).getD (.condition (swap f a) (swap f b) (swap f c))
  | .equal a b => (f (.equal a b)).getD (.equal (swap f a) (swap f b))
  | .builtin g args => (f (.builtin g args)).getD (.builtin g (swapList f args))
  | .invoke r m args ty =>
    (f (.invoke r m args ty)).getD (.invoke (swap f r) m (swapList f args) ty)
  | .lambda p b => (f (.lambda p b)).getD (.lambda p (swap f b))
  | .record name fields => (f (.record name fields)).getD (.record name (swapFields f fields))
  | .select s p b => (f (.select s p b)).getD (.select (swap f s) p (swap f b))
  | .letIn p v b => (f (.letIn p v b)).getD (.letIn p (swap f v) (swap f b))
  | e => (f e).getD e

def swapList (f : Expr → Option Expr) : List Expr → List Expr
  | [] => []
  | e :: es => swap f e :: swapList f es

def swapFields (f : Expr → Option Expr) : List (String × Expr) → List (String × Expr)
  | [] => []
  | (name, e) :: fields => (name, swap f e) :: swapFields f fields

end

theorem swapList_eq (f : Expr → Option Expr) (es : List Expr) : swapList f es = es.map (swap f) := by
  induction es with
  | nil => rfl
  | cons e es ih => simp [swapList, ih]

theorem swapFields_eq (f : Expr → Option Expr) (fields : List (String × Expr)) :
    swapFields f fields = fields.map fun field => (field.1, swap f field.2) := by
  induction fields with
  | nil => rfl
  | cons field fields ih => simp [swapFields, ih]

theorem swap_eq (f : Expr → Option Expr) (e : Expr) :
    swap f e = (f e).getD (e.mapParts (swap f)) := by
  cases e <;> simp [swap, mapParts, swapList_eq, swapFields_eq]

theorem swap_some {f : Expr → Option Expr} {e r : Expr} (h : f e = some r) : swap f e = r := by
  rw [swap_eq, h, Option.getD_some]

theorem swap_none {f : Expr → Option Expr} {e : Expr} (h : f e = none) :
    swap f e = e.mapParts (swap f) := by
  rw [swap_eq, h, Option.getD_none]

theorem swap_leaf {f : Expr → Option Expr} {e : Expr} (hc : e.children = []) (h : f e = none) :
    swap f e = e := by
  rw [swap_none h]
  cases e <;> simp_all [children, mapParts]

@[simp] theorem children_mapParts (g : Expr → Expr) (e : Expr) :
    (e.mapParts g).children = e.children.map g := by
  cases e <;> simp [mapParts, children]

@[simp] theorem bound_mapParts (g : Expr → Expr) (e : Expr) : (e.mapParts g).bound? = e.bound? := by
  cases e <;> rfl

@[simp] theorem own_mapParts (g : Expr → Expr) (e : Expr) : (e.mapParts g).own? = e.own? := by
  cases e <;> rfl

theorem mapParts_congr {g h : Expr → Expr} {e : Expr} (hgh : ∀ c ∈ e.children, g c = h c) :
    e.mapParts g = e.mapParts h := by
  cases e with
  | record name fields =>
    simp only [mapParts, record.injEq, true_and]
    refine List.map_congr_left fun field hf => ?_
    rw [hgh field.2 (List.mem_map_of_mem hf)]
  | _ => simp_all [mapParts, children]

/-- A part of a swapped expression stems from a replacement, or from a part that was rebuilt. -/
theorem mem_subterms_swap {f : Expr → Option Expr} {e x : Expr} (hx : x ∈ (swap f e).subterms) :
    (∃ y ∈ e.subterms, ∃ r, f y = some r ∧ x ∈ r.subterms) ∨
      ∃ y ∈ e.subterms, f y = none ∧ x = y.mapParts (swap f) := by
  induction e using partwise with
  | h e ih =>
    cases hf : f e with
    | some r =>
      rw [swap_some hf] at hx
      exact .inl ⟨e, self_mem_subterms e, r, hf, hx⟩
    | none =>
      rw [swap_none hf] at hx
      rcases mem_subterms.mp hx with rfl | ⟨c, hc, hx⟩
      · exact .inr ⟨e, self_mem_subterms e, hf, rfl⟩
      · rw [children_mapParts, List.mem_map] at hc
        obtain ⟨d, hd, rfl⟩ := hc
        rcases ih d hd hx with ⟨y, hy, h⟩ | ⟨y, hy, h⟩
        · exact .inl ⟨y, mem_subterms_of_child hd hy, h⟩
        · exact .inr ⟨y, mem_subterms_of_child hd hy, h⟩

theorem swap_congr {f g : Expr → Option Expr} {e : Expr} (h : ∀ x ∈ e.subterms, f x = g x) :
    swap f e = swap g e := by
  induction e using partwise with
  | h e ih =>
    rw [swap_eq, swap_eq, h e (self_mem_subterms e), mapParts_congr fun c hc =>
      ih c hc fun x hx => h x (mem_subterms_of_child hc hx)]

theorem ids_swap {f : Expr → Option Expr} {e : Expr} {i : Nat} (hi : i ∈ (swap f e).ids) :
    i ∈ e.ids ∨ ∃ x ∈ e.subterms, ∃ r, f x = some r ∧ i ∈ r.ids := by
  obtain ⟨x, hx, p, hp, rfl⟩ := mem_ids.mp hi
  rcases mem_subterms_swap hx with ⟨y, hy, r, hr, hx⟩ | ⟨y, hy, -, rfl⟩
  · exact .inr ⟨y, hy, r, hr, mem_ids.mpr ⟨x, hx, p, hp, rfl⟩⟩
  · rw [own_mapParts] at hp
    exact .inl (mem_ids.mpr ⟨y, hy, p, hp, rfl⟩)

theorem binders_swap {f : Expr → Option Expr} {e : Expr} {i : Nat} (hi : i ∈ (swap f e).binders) :
    i ∈ e.binders ∨ ∃ x ∈ e.subterms, ∃ r, f x = some r ∧ i ∈ r.binders := by
  obtain ⟨x, hx, p, hp, rfl⟩ := mem_binders.mp hi
  rcases mem_subterms_swap hx with ⟨y, hy, r, hr, hx⟩ | ⟨y, hy, -, rfl⟩
  · exact .inr ⟨y, hy, r, hr, mem_binders.mpr ⟨x, hx, p, hp, rfl⟩⟩
  · rw [bound_mapParts] at hp
    exact .inl (mem_binders.mpr ⟨y, hy, p, hp, rfl⟩)

end Expr

end FieldPlan
