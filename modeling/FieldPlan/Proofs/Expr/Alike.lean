import FieldPlan.Proofs.Expr.Value

/-!
# Computations that are alike

Two computations that, started in related states, give the same result or both fail, whatever the
errors, and end in related states.

* `Alike` : the relation; `Alike.bind`, `Alike.mapM` : steps that are alike make runs that are;
* `AlikeKeys`, `Alike.sorted` : sorting by keys that are alike.
-/

namespace FieldPlan

section Alike

variable {σ α β : Type} {R : σ → σ → Prop}

/-- In related states the computations give the same result or both fail, and end in related states. -/
def Alike (R : σ → σ → Prop) (x y : Exec σ α) : Prop :=
  ∀ s t, R s t → (x s).1.toOption = (y t).1.toOption ∧ R (x s).2 (y t).2

namespace Alike

variable {x y : Exec σ α}

theorem pure (a : α) : Alike R (Pure.pure a) (Pure.pure a) := fun _ _ h => ⟨rfl, h⟩

theorem throw (e e' : ExecError) :
    Alike R (MonadExcept.throw e : Exec σ α) (MonadExcept.throw e') := fun _ _ h => ⟨rfl, h⟩

theorem fault (f f' : TypeFault) : Alike R (FieldPlan.fault f : Exec σ α) (FieldPlan.fault f') :=
  throw _ _

theorem bind {k l : α → Exec σ β} (hx : Alike R x y) (hk : ∀ a, Alike R (k a) (l a)) :
    Alike R (x >>= k) (y >>= l) := by
  intro s t h
  obtain ⟨same, next⟩ := hx s t h
  rw [exec_bind, exec_bind]
  rcases hxs : x s with ⟨_ | a, s'⟩ <;> rcases hyt : y t with ⟨_ | b, t'⟩ <;>
    rw [hxs, hyt] at same next <;> cases same
  · exact ⟨rfl, next⟩
  · exact hk a s' t' next

theorem mapM {f g : α → Exec σ β} (h : ∀ a, Alike R (f a) (g a)) (as : List α) :
    Alike R (as.mapM f) (as.mapM g) := by
  induction as with
  | nil => exact pure []
  | cons a as ih =>
    rw [List.mapM_cons, List.mapM_cons]
    exact (h a).bind fun b => ih.bind fun bs => pure (b :: bs)

theorem readMember (name : String) (v : Json) :
    Alike R (FieldPlan.readMember name v) (FieldPlan.readMember name v) := by
  cases v with
  | null | obj _ => exact pure _
  | _ => exact fault _ _

theorem slice (function : Builtin) (items : List Json) (count : Json) :
    Alike R (FieldPlan.slice function items count) (FieldPlan.slice function items count) := by
  unfold FieldPlan.slice
  split
  · exact pure _
  · exact fault _ _

end Alike

/-! ## Sorting -/

/-- Keys of the same directions with values that are alike on every item. -/
def AlikeKeys (R : σ → σ → Prop) : List (SortKey σ) → List (SortKey σ) → Prop :=
  List.Forall₂ fun key key' => key.direction = key'.direction ∧
    ∀ item, Alike R (key.value item) (key'.value item)

variable {keys keys' : List (SortKey σ)}

theorem AlikeKeys.directions (h : AlikeKeys R keys keys') :
    keys.map (·.direction) = keys'.map (·.direction) := by
  induction h with
  | nil => rfl
  | cons h _ ih => rw [List.map_cons, List.map_cons, h.1, ih]

theorem AlikeKeys.values (h : AlikeKeys R keys keys') (item : Json) :
    Alike R (keyValues keys item) (keyValues keys' item) := by
  unfold keyValues
  induction h with
  | nil => exact .pure []
  | cons h _ ih =>
    rw [List.mapM_cons, List.mapM_cons]
    exact (h.2 item).bind fun v => ih.bind fun vs => .pure (v :: vs)

theorem Alike.sortBy (h : AlikeKeys R keys keys') (v : Json) :
    Alike R (FieldPlan.sortBy keys v) (FieldPlan.sortBy keys' v) := by
  cases v with
  | null => exact pure _
  | arr items =>
    unfold FieldPlan.sortBy
    rw [h.directions]
    exact (mapM (fun item => (h.values item).bind fun values => pure (values, item)) items).bind
      fun keyed => pure _
  | _ => exact fault _ _

theorem Alike.sorted (h : AlikeKeys R keys keys') {x y : Exec σ Json} (hx : Alike R x y) :
    Alike R (FieldPlan.sorted keys x) (FieldPlan.sorted keys' y) := by
  refine hx.bind fun v => ?_
  cases h with
  | nil => exact pure v
  | cons first rest => exact sortBy (.cons first rest) v

/-! ## Environments -/

namespace Env

def lookup (env : Env σ) (i : Nat) : Option (Slot σ) := (env.find? fun entry => entry.1 == i).map (·.2)

variable {env env' : Env σ} {p p' : Param}

theorem lookup_bind (p : Param) (v : Json) (i : Nat) :
    (env.bind p v).lookup i = if p.id = i then some (.value v) else env.lookup i := by
  unfold lookup bind
  by_cases h : p.id = i
  · rw [List.find?_cons_of_pos (by simpa using h), if_pos h]
    rfl
  · rw [List.find?_cons_of_neg (by simpa using h), if_neg h]

theorem slot_lookup (env : Env σ) (p : Param) : env.slot p =
    match env.lookup p.id with
    | some slot => pure slot
    | none => throw (.unboundParameter p.name) := by
  unfold slot lookup
  cases env.find? fun entry => entry.1 == p.id <;> rfl

theorem slot_alike (h : env.lookup p.id = env'.lookup p'.id) :
    Alike R (env.slot p) (env'.slot p') := by
  rw [slot_lookup, slot_lookup, h]
  split
  · exact .pure _
  · exact .throw _ _

theorem value_alike (h : env.lookup p.id = env'.lookup p'.id) :
    Alike R (env.value p) (env'.value p') := by
  refine (slot_alike h).bind fun slot => ?_
  cases slot with
  | value v => exact .pure v
  | service name s => exact .fault _ _

end Env

end Alike

end FieldPlan
