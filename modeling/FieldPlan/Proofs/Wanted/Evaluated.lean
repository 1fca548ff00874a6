import FieldPlan.Proofs.Wanted.Value

/-!
# Objects that are there

The expression of an object that admits no null and comes from no service does not look at the value
that the object stands for. So it has a value where the object has none, unless the members of the
object are read.

* `Wanted.Evaluated` : the values of such objects are there;
* `Wanted.evaluated_of_value` : they are there where there is a value of all that is wanted.
-/

namespace FieldPlan

/-! ## Maps that may have no result -/

section Maps

variable {α β γ : Type} {as : List α}

theorem mapM_congr {f g : α → Option β} (h : ∀ a ∈ as, f a = g a) : as.mapM f = as.mapM g := by
  induction as with
  | nil => rfl
  | cons a as ih =>
    obtain ⟨ha, has⟩ := List.forall_mem_cons.mp h
    rw [List.mapM_cons, List.mapM_cons, ha, ih has]

theorem mapM_cons_some {f : α → Option β} {a : α} {cs : List β} :
    (a :: as).mapM f = some cs ↔ ∃ b bs, f a = some b ∧ as.mapM f = some bs ∧ cs = b :: bs := by
  simp only [List.mapM_cons, Option.bind_eq_bind, Option.bind_eq_some_iff, Option.pure_def,
    Option.some.injEq, eq_comm (a := cs)]
  exact ⟨fun ⟨b, hb, bs, hbs, h⟩ => ⟨b, bs, hb, hbs, h⟩, fun ⟨b, bs, hb, hbs, h⟩ => ⟨b, hb, bs, hbs, h⟩⟩

theorem mapM_some_iff {f : α → Option β} :
    (∃ bs, as.mapM f = some bs) ↔ ∀ a ∈ as, ∃ b, f a = some b := by
  induction as with
  | nil => simp
  | cons a as ih =>
    rw [List.forall_mem_cons, ← ih]
    simp only [mapM_cons_some]
    exact ⟨fun ⟨_, b, bs, hb, hbs, _⟩ => ⟨⟨b, hb⟩, bs, hbs⟩,
      fun ⟨⟨b, hb⟩, bs, hbs⟩ => ⟨_, b, bs, hb, hbs, rfl⟩⟩

theorem mem_of_mapM {f : α → Option β} {bs : List β} (h : as.mapM f = some bs) {b : β}
    (hb : b ∈ bs) : ∃ a ∈ as, f a = some b := by
  induction as generalizing bs with
  | nil =>
    cases h
    cases hb
  | cons a as ih =>
    obtain ⟨c, cs, hc, hcs, rfl⟩ := mapM_cons_some.mp h
    rcases List.mem_cons.mp hb with rfl | hb
    · exact ⟨a, List.mem_cons_self, hc⟩
    · obtain ⟨a', ha', hf⟩ := ih hcs hb
      exact ⟨a', List.mem_cons_of_mem _ ha', hf⟩

/-- A map of the results of a map. -/
theorem mapM_of_mapM {f : α → Option β} {g : β → Option γ} {k : α → Option γ} {bs : List β}
    (h : as.mapM f = some bs) (hg : ∀ a ∈ as, ∀ b, f a = some b → g b = k a) :
    bs.mapM g = as.mapM k := by
  induction as generalizing bs with
  | nil =>
    cases h
    rfl
  | cons a as ih =>
    obtain ⟨b, bs, hb, hbs, rfl⟩ := mapM_cons_some.mp h
    obtain ⟨ha, has⟩ := List.forall_mem_cons.mp hg
    rw [List.mapM_cons, List.mapM_cons, ha b hb, ih hbs has]

end Maps

/-! ## Objects -/

variable (config : SchemaConfig) (answers : Answers)

mutual

/-- The values of the objects are there that admit no null and come from no service. -/
def Wanted.Evaluated (called : Bool) (parent : Json) : Wanted → Prop
  | .leaf _ => True
  | .object item children =>
    ((item.ty.nullable || item.called called) = false →
      (item.value config answers parent).isSome = true) ∧
      ∀ v, item.value config answers parent = some v →
        (v.isNull && (item.ty.nullable || item.called called)) = false →
          Wanted.EvaluatedAll (item.called called) v children
  | .list item children =>
    ∀ items, item.value config answers parent = some (.arr items) →
      ∀ v ∈ items, Wanted.EvaluatedAll false v children

def Wanted.EvaluatedAll (called : Bool) (parent : Json) : List Wanted → Prop
  | [] => True
  | w :: ws => Wanted.Evaluated called parent w ∧ Wanted.EvaluatedAll called parent ws

end

variable {config answers}

theorem Wanted.evaluatedAll_iff {called : Bool} {parent : Json} {ws : List Wanted} :
    Wanted.EvaluatedAll config answers called parent ws ↔
      ∀ w ∈ ws, w.Evaluated config answers called parent := by
  induction ws with
  | nil => simp [Wanted.EvaluatedAll]
  | cons w ws ih => rw [Wanted.EvaluatedAll, ih, List.forall_mem_cons]

theorem Json.forItems_congr {f g : Json → Option Json} {v : Json}
    (h : ∀ items, v = .arr items → ∀ item ∈ items, f item = g item) : v.forItems f = v.forItems g := by
  cases v with
  | arr items => simp only [forItems, mapM_congr (h items rfl)]
  | _ => rfl

theorem Json.forItems_some {f : Json → Option Json} {items : List Json} {r : Json}
    (h : (Json.arr items).forItems f = some r) {item : Json} (hi : item ∈ items) :
    ∃ v, f item = some v := by
  obtain ⟨rs, hrs, -⟩ := Option.map_eq_some_iff.mp h
  exact mapM_some_iff.mp ⟨rs, hrs⟩ item hi

mutual

/-- The values of objects are there where there is a value of all that is wanted. -/
theorem Wanted.evaluated_of_value {called : Bool} {parent r : Json} {w : Wanted}
    (h : w.value config answers called parent = some r) : w.Evaluated config answers called parent := by
  match w with
  | .leaf _ => trivial
  | .object item children =>
    obtain ⟨u, hu, h⟩ := Option.bind_eq_some_iff.mp h
    refine ⟨fun _ => by rw [hu]; rfl, fun v hv hguard => ?_⟩
    obtain rfl := Option.some.inj (hu.symm.trans hv)
    rw [if_neg (by simp [hguard])] at h
    obtain ⟨vs, hvs, -⟩ := Option.bind_eq_some_iff.mp h
    exact Wanted.evaluatedAll_of_values hvs
  | .list item children =>
    obtain ⟨u, hu, h⟩ := Option.bind_eq_some_iff.mp h
    intro items hitems v hv
    obtain rfl := Option.some.inj (hu.symm.trans hitems)
    obtain ⟨w, hw⟩ := Json.forItems_some h hv
    obtain ⟨vs, hvs, -⟩ := Option.map_eq_some_iff.mp hw
    exact Wanted.evaluatedAll_of_values hvs

theorem Wanted.evaluatedAll_of_values {called : Bool} {parent : Json} {ws : List Wanted}
    {vs : List (String × Json)} (h : Wanted.values config answers called parent ws = some vs) :
    Wanted.EvaluatedAll config answers called parent ws := by
  match ws with
  | [] => trivial
  | w :: ws =>
    obtain ⟨v, hv, h⟩ := Option.bind_eq_some_iff.mp h
    obtain ⟨vs, hvs, -⟩ := Option.bind_eq_some_iff.mp h
    exact ⟨Wanted.evaluated_of_value hv, Wanted.evaluatedAll_of_values hvs⟩

end

end FieldPlan
