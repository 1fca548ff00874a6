import FieldPlan.Proofs.Schema.Arguments

/-!
# Refused arguments

* `PlanFault.OfValue`, `Schema.checkValue_fails` : the faults of values;
* `Schema.validate_fails` : arguments are refused as undeclared, for their values or as missing;
* `Schema.validate_undeclared_iff` : they are refused as undeclared where a name is not declared;
* `Schema.inherited_undeclared_iff` : inherited arguments are refused as undeclared where a node or
  one of its donors writes an argument that neither the field of the node nor the one from which that
  field inherits declares;
* `Schema.inherited_once` : this does not happen where at most one donor is there, and what is
  written is declared where it is written.
-/

namespace FieldPlan

def PlanFault.OfValue : PlanFault → Prop
  | .badArgument .. | .undeclaredInputField .. | .missingInputField .. | .notExactlyOne ..
  | .unknownInputType _ => True
  | _ => False

namespace Schema

variable {s : Schema} {argument : String} {f : FieldDef} {values : Dict Json}

/-! ## Values -/

theorem getInput_fails (name : String) : Fails PlanFault.OfValue (s.getInput name) := by
  unfold getInput
  split
  · exact .pure _
  · exact .throw trivial

theorem checkAtom_fails (v : Json) (t : InputTy) :
    Fails PlanFault.OfValue (s.checkAtom argument v t) := by
  unfold checkAtom
  split
  · split
    · exact .pure _
    · exact .throw trivial
  · split
    · exact .pure _
    · exact .throw trivial
  · exact .bind (getInput_fails _) fun _ => .throw trivial
  · exact .throw trivial

theorem checkSingle_fails {check : InputTy → Except PlanFault Json}
    (hc : ∀ t, Fails PlanFault.OfValue (check t)) (t : InputTy) :
    Fails PlanFault.OfValue (checkSingle check t) := by
  induction t with
  | list t nullable ih =>
    rw [checkSingle]
    exact .bind ih fun v => .pure _
  | scalar s nullable => exact hc _
  | enum name nullable => exact hc _
  | object name nullable => exact hc _

theorem checkOneOf_fails (input : InputObject) (members : List (String × Json)) :
    Fails PlanFault.OfValue (checkOneOf argument input members) := by
  unfold checkOneOf
  split
  · exact .throw trivial
  · exact .pure _

theorem checkPresent_fails (input : InputObject) (members : Dict Json) :
    Fails PlanFault.OfValue (checkPresent input members) := by
  unfold checkPresent
  split
  · exact .throw trivial
  · exact .pure _

mutual

theorem checkValue_fails (v : Json) (t : InputTy) :
    Fails PlanFault.OfValue (s.checkValue argument v t) := by
  unfold checkValue
  split
  · split
    · exact .pure _
    · exact .throw trivial
  · exact .bind (checkItems_fails _ _) fun items => .pure _
  · exact checkAtom_fails _ _
  · refine checkSingle_fails (fun t => ?_) _
    split
    · refine .bind (getInput_fails _) fun input => .bind (checkOneOf_fails _ _) fun _ => ?_
      exact .bind (checkMembers_fails _ _) fun ms => .bind (checkPresent_fails _ _) fun _ => .pure _
    · exact checkAtom_fails _ _
  · exact checkSingle_fails (checkAtom_fails _) _

theorem checkItems_fails (vs : List Json) (t : InputTy) :
    Fails PlanFault.OfValue (s.checkItems argument vs t) := by
  unfold checkItems
  split
  · exact .pure _
  · exact .bind (checkValue_fails _ _) fun v => .bind (checkItems_fails _ _) fun vs => .pure _

theorem checkMembers_fails (input : InputObject) (ms : List (String × Json)) :
    Fails PlanFault.OfValue (s.checkMembers argument input ms) := by
  unfold checkMembers
  split
  · exact .pure _
  · split
    · exact .throw trivial
    · exact .bind (checkValue_fails _ _) fun v => .bind (checkMembers_fails _ _) fun ms => .pure _

end

/-! ## Arguments -/

theorem setArgument_fails (values : Dict Json) (entry : String × ArgumentDef) :
    Fails (fun fault => fault.OfValue ∨ ∃ name t, fault = .missingArgument f.name name t)
      (s.setArgument f values entry) := by
  unfold setArgument
  split
  · exact .bind ((checkValue_fails _ _).mono fun _ => .inl) fun v => .pure _
  · split
    · exact .pure _
    · exact .throw (.inr ⟨_, _, rfl⟩)

theorem checkDeclared_fails (defs : Dict ArgumentDef) (values : Dict Json) :
    Fails (fun fault => ∃ name, fault = .undeclaredArgument name f.name)
      (checkDeclared f defs values) := by
  unfold checkDeclared
  split
  · exact .throw ⟨_, rfl⟩
  · exact .pure _

theorem validate_fails (f : FieldDef) (values : Dict Json) :
    Fails (fun fault => (∃ name, fault = .undeclaredArgument name f.name) ∨ fault.OfValue ∨
      ∃ name t, fault = .missingArgument f.name name t) (s.validate f values) :=
  .bind ((checkDeclared_fails _ _).mono fun _ => .inl) fun _ =>
    (Fails.foldlM setArgument_fails _ _).mono fun _ => .inr

theorem validate_undeclared_iff :
    (∃ name field, s.validate f values = .error (.undeclaredArgument name field)) ↔
      ∃ name ∈ values.keys, ∀ d, ¬s.Declares f name d := by
  have declared_iff : (∀ name ∈ values.keys, name ∈ (s.argumentDefs f).keys) ↔
      ¬∃ name ∈ values.keys, ∀ d, ¬s.Declares f name d := by
    simp [mem_keys_argumentDefs]
  unfold validate
  dsimp only
  cases hc : checkDeclared f (s.argumentDefs f) values with
  | ok u =>
    obtain ⟨⟩ := u
    refine ⟨fun ⟨name, field, h⟩ => ?_, fun h => absurd h (declared_iff.mp (checkDeclared_ok.mp hc))⟩
    rcases Fails.foldlM setArgument_fails _ _ _ h with h | ⟨name', t, h⟩
    · exact h.elim
    · cases h
  | error e =>
    obtain ⟨name, rfl⟩ := checkDeclared_fails _ _ e hc
    refine ⟨fun _ => ?_, fun _ => ⟨name, f.name, rfl⟩⟩
    by_contra hn
    rw [checkDeclared_ok.mpr (declared_iff.mpr hn)] at hc
    cases hc

/-! ## Inherited arguments -/

theorem keys_resolve (assignment : Dict Json) (arguments : Arguments) :
    (arguments.resolve assignment).keys = Dict.keys arguments := by
  induction arguments with
  | nil => rfl
  | cons a arguments ih => exact congrArg (a.1 :: ·) ih

variable {t : SelectionTree} {n : Node} {lineage : List NodeId} {donors : List Node}

theorem mem_keys_merged (h : t.Donors n lineage donors) (assignment : Dict Json) (name : String) :
    name ∈ ((t.mergedArguments n lineage).resolve assignment).keys ↔
      ∃ m ∈ n :: donors, name ∈ m.arguments.keys := by
  rw [keys_resolve, h.merged_eq, Dict.mem_keys_union]
  simp [Dict.keys, List.map_flatMap]

theorem inherited_undeclared_iff (h : t.Donors n lineage donors) (assignment : Dict Json) :
    (∃ name field, s.validate f ((t.mergedArguments n lineage).resolve assignment) =
      .error (.undeclaredArgument name field)) ↔
      ∃ m ∈ n :: donors, ∃ name ∈ m.arguments.keys, ∀ d, ¬s.Declares f name d := by
  rw [validate_undeclared_iff]
  simp only [mem_keys_merged h]
  exact ⟨fun ⟨name, ⟨m, hm, hn⟩, hd⟩ => ⟨m, hm, name, hn, hd⟩,
    fun ⟨m, hm, name, hn, hd⟩ => ⟨name, ⟨m, hm, hn⟩, hd⟩⟩

/-- Arguments that are inherited over one link are declared, where they are declared for the field
that they are written on. -/
theorem inherited_once {g : Field} (h : t.Donors n lineage donors) (once : donors.length ≤ 1)
    (hn : n.field? = some g)
    (known : ∀ m ∈ donors, ∀ a, m.field? = some a → s.fieldById? a.id = some a)
    (written : ∀ m ∈ n :: donors, ∀ a, m.field? = some a →
      ∀ name ∈ m.arguments.keys, name ∈ a.arguments.keys)
    (assignment : Dict Json) (name field : String) :
    s.validate g.toFieldDef ((t.mergedArguments n lineage).resolve assignment) ≠
      .error (.undeclaredArgument name field) := by
  intro he
  obtain ⟨m, hm, name, hname, undeclared⟩ := (inherited_undeclared_iff h assignment).mp ⟨_, _, he⟩
  have own : ∀ (a : Field), name ∈ a.arguments.keys → ∃ d, a.arguments.find? name = some d := by
    intro a ha
    rw [← Option.isSome_iff_exists, ← Option.ne_none_iff_isSome]
    exact fun hn => (Dict.find?_eq_none _ _).mp hn ha
  rcases List.mem_cons.mp hm with rfl | hd
  · obtain ⟨d, hd⟩ := own g (written m hm g hn name hname)
    exact undeclared d (.own hd)
  · cases h with
    | none => cases hd
    | @some _ a _ _ source rest hs ha hr =>
      obtain rfl : rest = [] := by
        cases rest with
        | nil => rfl
        | cons => simp at once
      obtain rfl := List.mem_singleton.mp hd
      obtain ⟨passed, id, -, -, selects, -⟩ := ha
      obtain ⟨b, hb, same⟩ := (Option.any_eq_true _ _).mp selects
      obtain rfl : b.id = source := by simpa using same
      have linked : g.useArgumentsFrom.bind s.fieldById? = some b := by
        rw [Node.argumentSource?, hn, Option.bind_some] at hs
        rw [hs, Option.bind_some]
        exact known m hd b hb
      obtain ⟨d, hd⟩ := own b (written m hm b hb name hname)
      by_cases new : name ∈ g.arguments.keys
      · obtain ⟨d, hd⟩ := own g new
        exact undeclared d (.own hd)
      · exact undeclared d (.inherited linked new hd)

end Schema

end FieldPlan
