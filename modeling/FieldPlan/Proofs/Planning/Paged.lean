import FieldPlan.Proofs.Planning.TwoPasses

/-!
# Paged lists

* `Json.AtMost` : null, or a list of at most so many values;
* `FieldConfig.maxTake?` : the most items that a field may have, if its description says so;
* `Item.value_atMost` : the value of such a field has no more items than that;
* `Wanted.Paged` : a value in which no list of objects is longer than its field may be;
* `Planner.wanted_paged` : the value of a request is such a value;
* `RootOutcome.paged` : and so is what the plans of a root field give, in one pass or in two.
-/

namespace FieldPlan

/-! ## Slices -/

def Json.AtMost (n : Nat) (v : Json) : Prop := v = .null ∨ ∃ vs, v = .arr vs ∧ vs.length ≤ n

def FieldConfig.maxTake? : FieldConfig → Option Nat
  | .short _ => none
  | .full d => d.paging.bind (·.maxTake)

/-- A slice takes no more than the maximum. -/
theorem PagingConfig.slice?_take {p : PagingConfig} {arguments : Dict Json} {most : Nat}
    (hmost : p.maxTake = some most) {skip take : Option Nat}
    (h : p.slice? arguments = some (skip, take)) : ∃ n ≤ most, take = some n := by
  obtain ⟨skip, -, h⟩ := Option.bind_eq_some_iff.mp h
  obtain ⟨given, -, h⟩ := Option.bind_eq_some_iff.mp h
  rw [hmost] at h
  cases ht : given <|> p.defaultTake <|> some most with
  | none => cases given <;> cases hd : p.defaultTake <;> simp [hd] at ht
  | some n =>
    rw [ht] at h
    dsimp only at h
    split at h
    · cases h
    · cases h
      exact ⟨n, Nat.le_of_not_lt ‹_›, rfl⟩

theorem FieldConfig.arrangement?_take {fc : FieldConfig} {arguments : Dict Json} {most : Nat}
    (hmost : fc.maxTake? = some most) {a : Arrangement} (h : fc.arrangement? arguments = some a) :
    ∃ n ≤ most, a.take = some n := by
  cases fc with
  | short ty => cases hmost
  | full d =>
    obtain ⟨p, hp, hmost⟩ := Option.bind_eq_some_iff.mp hmost
    obtain ⟨order, -, h⟩ := Option.bind_eq_some_iff.mp h
    obtain ⟨⟨skip, take⟩, hslice, h⟩ := Option.bind_eq_some_iff.mp h
    cases h
    rw [hp] at hslice
    exact PagingConfig.slice?_take hmost hslice

theorem Json.takeItems_atMost {v u : Json} {n : Nat} (h : v.takeItems (some n) = some u) :
    u.AtMost n := by
  cases v with
  | null =>
    cases h
    exact .inl rfl
  | arr items =>
    cases h
    exact .inr ⟨_, rfl, List.length_take_le n items⟩
  | _ => cases h

theorem length_of_mapM {α β : Type} {f : α → Option β} {as : List α} {bs : List β}
    (h : as.mapM f = some bs) : bs.length = as.length := by
  induction as generalizing bs with
  | nil =>
    cases h
    rfl
  | cons a as ih =>
    obtain ⟨b, bs, -, hbs, rfl⟩ := mapM_cons_some.mp h
    rw [List.length_cons, List.length_cons, ih hbs]

theorem Json.AtMost.mono {v : Json} {m n : Nat} (h : v.AtMost m) (hmn : m ≤ n) : v.AtMost n :=
  h.imp_right fun ⟨vs, hv, hle⟩ => ⟨vs, hv, hle.trans hmn⟩

/-- As many values as there are items. -/
theorem Json.AtMost.forItems {v u : Json} {n : Nat} {f : Json → Option Json} (h : v.AtMost n)
    (hf : v.forItems f = some u) : u.AtMost n := by
  obtain rfl | ⟨vs, rfl, hle⟩ := h
  · cases hf
    exact .inl rfl
  · obtain ⟨us, hus, rfl⟩ := Option.map_eq_some_iff.mp hf
    exact .inr ⟨us, rfl, (length_of_mapM hus).symm ▸ hle⟩

/-! ## Values -/

section Values

variable {config : SchemaConfig} {answers : Answers}

/-- The value of a paged field has no more items than its description allows. -/
theorem Item.value_atMost {item : Item} {fc : FieldConfig} {most : Nat}
    (hmost : fc.maxTake? = some most) (arranged : item.arrangement = fc.arrangement? item.arguments)
    {parent v : Json} (h : item.value config answers parent = some v) : v.AtMost most := by
  obtain ⟨source, -, h⟩ := Option.bind_eq_some_iff.mp h
  obtain ⟨a, ha, h⟩ := Option.bind_eq_some_iff.mp h
  obtain ⟨n, hn, take⟩ := FieldConfig.arrangement?_take hmost (arranged.symm.trans ha)
  obtain ⟨sorted, -, h⟩ := Option.bind_eq_some_iff.mp h
  obtain ⟨rest, -, h⟩ := Option.bind_eq_some_iff.mp h
  rw [take] at h
  exact (Json.takeItems_atMost h).mono hn

mutual

/-- The value of what is wanted holds no list of objects that is longer than the field of which it is
the value may be. -/
def Wanted.Paged (config : SchemaConfig) (c : Planner) : Wanted → Json → Prop
  | .leaf _, _ => True
  | .object _ children, v => v = .null ∨ ∃ ms, v = .obj ms ∧ Wanted.PagedAll config c children ms
  | .list item children, v =>
    (∃ s, c.Selects config .services s item ∧ ∀ most,
      (config.field? s.field.owner s.field.name).bind (·.maxTake?) = some most → v.AtMost most) ∧
    (v = .null ∨ ∃ vs, v = .arr vs ∧
      ∀ u ∈ vs, ∃ ms, u = .obj ms ∧ Wanted.PagedAll config c children ms)

def Wanted.PagedAll (config : SchemaConfig) (c : Planner) : List Wanted → List (String × Json) → Prop
  | [], ms => ms = []
  | w :: ws, ms => ∃ v rest, ms = (w.name, v) :: rest ∧ Wanted.Paged config c w v ∧
    Wanted.PagedAll config c ws rest

end

variable {c : Planner}

theorem Wanted.pagedAll_of_values {called : Bool} {parent : Json} {ws : List Wanted}
    (all : ∀ w ∈ ws, ∀ called parent v, w.value config answers called parent = some v →
      w.Paged config c v) {ms : List (String × Json)}
    (h : Wanted.values config answers called parent ws = some ms) :
    Wanted.PagedAll config c ws ms := by
  induction ws generalizing ms with
  | nil =>
    cases h
    rfl
  | cons w ws ih =>
    obtain ⟨first, rest⟩ := List.forall_mem_cons.mp all
    obtain ⟨v, hv, h⟩ := Option.bind_eq_some_iff.mp h
    obtain ⟨vs, hvs, h⟩ := Option.bind_eq_some_iff.mp h
    cases h
    exact ⟨v, vs, rfl, first _ _ v hv, ih rest hvs⟩

/-- In the value of a request no list of objects is longer than its field may be. -/
theorem Planner.wanted_paged (built : config.build = .ok c.schema) (onSchema : c.tree.Over c.schema)
    {depth : Nat} {isRoot : Bool} {s : Selected} (kept : c.Kept s) {lineage : List NodeId}
    {path : Path} {w : Wanted}
    (h : c.wanted config .services depth isRoot s lineage path = .ok (some w)) :
    ∀ called parent v, w.value config answers called parent = some v → w.Paged config c v := by
  obtain ⟨-, standard, -⟩ := SchemaConfig.build_ok built
  refine wanted_induction (P := fun w => ∀ called parent v,
      w.value config answers called parent = some v → w.Paged config c v)
    standard onSchema (fun h => Pass.noConfusion h) (fun _ _ _ _ _ _ => trivial)
    ?_ ?_ depth kept h
  · intro s item ws selects hshape all called parent v hv
    obtain ⟨u, hu, hv⟩ := Option.bind_eq_some_iff.mp hv
    split at hv
    · cases hv
      exact .inl rfl
    · obtain ⟨ms, hms, hv⟩ := Option.bind_eq_some_iff.mp hv
      cases hv
      exact .inr ⟨ms, rfl, Wanted.pagedAll_of_values all hms⟩
  · intro s item ws selects hshape all called parent v hv
    obtain ⟨u, hu, hv⟩ := Option.bind_eq_some_iff.mp hv
    refine ⟨⟨s, selects, fun most hmost => ?_⟩, ?_⟩
    · obtain ⟨fc, source, traits, found⟩ := selects.described built
      rw [traits.found, Option.bind_some] at hmost
      exact (Item.value_atMost hmost found.arrangement hu).forItems hv
    · cases u with
      | null =>
        cases hv
        exact .inl rfl
      | arr items =>
        obtain ⟨vs, hvs, rfl⟩ := Option.map_eq_some_iff.mp hv
        refine .inr ⟨vs, rfl, fun v hv => ?_⟩
        obtain ⟨item', -, hv⟩ := mem_of_mapM hvs hv
        obtain ⟨ms, hms, rfl⟩ := Option.map_eq_some_iff.mp hv
        exact ⟨ms, rfl, Wanted.pagedAll_of_values all hms⟩
      | _ => cases hv

end Values

/-- What the plans of a root field give, in one pass or in two, holds no list of objects that is longer
than its field may be. -/
theorem RootOutcome.paged {config : SchemaConfig} {c : Planner} (built : config.build = .ok c.schema)
    (onSchema : c.tree.Over c.schema) (forward : c.tree.Forward) (bare : c.tree.Bare)
    (divides : c.Divides) (agree : config.PartsAgree) (unpaged : config.Unpaged c.schema)
    {rootType : String} {s : Selected} {n n' : Nat} {field : PlannedField} (reached : c.Reaches s)
    (kept : c.Kept s) (h : RootOutcome config c rootType s n n' field) {σ : Type} {services : Services σ}
    {answers : Answers} (hs : services.AnswerBy answers) (respect : answers.Respect) {w : Wanted}
    (wanted : c.wanted config .services (c.options.maxDepth + 1) true s [] [s.node.name] =
      .ok (some w)) {data : Json} (readable : w.Readable config answers false data)
    {state next : σ} {v : Json} (run : field.run services data state = (.ok (some v), next)) :
    w.Paged config c v := by
  have computes := RootOutcome.computes built onSchema forward divides agree bare unpaged reached kept h
    hs respect wanted readable
  cases hv : w.value config answers false data with
  | none =>
    rw [hv] at computes
    obtain ⟨e, he⟩ := computes state
    cases he.symm.trans run
  | some u =>
    rw [hv] at computes
    cases (computes state).symm.trans run
    exact Planner.wanted_paged built onSchema kept wanted false data v hv

end FieldPlan
