import FieldPlan.Json.Basic
import FieldPlan.Proofs.Success
import FieldPlan.Ty.Reference

/-!
# Values of types

A type says something of a value only where it has a record in it, which only a plan builds. Values
of scalars and entities come from outside and may be anything.

* `Ty.hasRecord` : a record stands in the type; the types of references have none;
* `Ty.Member` : the type of a member that is read from a value of another type;
* `Ty.Describes` : the value is what the type says;
* `Ty.Describes.find?`, `Ty.Describes.of_subset` : the members of such a value, and some of its items.
-/

namespace FieldPlan

namespace Ty

/-- A record stands in the type: it is one, or it is a list with one in its elements. -/
def hasRecord : Ty → Bool
  | .record _ _ _ => true
  | .list t _ => hasRecord t
  | _ => false

@[simp] theorem hasRecord_withNullable (n : Bool) (t : Ty) :
    (t.withNullable n).hasRecord = t.hasRecord := by
  cases t <;> rfl

theorem member?_of_bare {t : Ty} (h : t.hasRecord = false) (name : String) :
    t.member? name = none := by
  cases t <;> first | rfl | cases h

/-- The type `t` that a member has in a value of type `τ`: the one that `τ` gives it, and one without a
record if `τ` does not know the member. -/
def Member (τ : Ty) (name : String) (t : Ty) : Prop :=
  τ.member? name = some t ∨ τ.member? name = none ∧ t.hasRecord = false

theorem Member.eq {τ t u : Ty} {name : String} (h : τ.Member name t) (hu : τ.member? name = some u) :
    u = t := by
  rcases h with h | ⟨h, -⟩
  · exact Option.some.inj (hu.symm.trans h)
  · cases hu.symm.trans h

theorem member_getD {t : Ty} (h : t.hasRecord = false) (τ : Ty) (name : String) :
    τ.Member name ((τ.member? name).getD t) := by
  cases hm : τ.member? name with
  | none => exact .inr ⟨hm, h⟩
  | some u => exact .inl hm

/-! ## References -/

theorem hasRecord_named {name : String} {n : Bool} {t : Ty} (h : named? name n = some t) :
    t.hasRecord = false := by
  unfold named? at h
  split at h
  · cases h
    rfl
  · split at h <;> cases h
    rfl

/-- The types that references denote have no record. -/
theorem hasRecord_ofReference {text : String} {t : Ty} (h : ofReference text = .ok t) :
    t.hasRecord = false := by
  unfold ofReference at h
  generalize text.toList = cs at h
  fun_induction Reference.read named? Ty.list cs generalizing t with
  | case1 => cases h
  | case2 cs _ inner _ ih =>
    obtain ⟨element, read, h⟩ := bind_ok.mp h
    cases h
    have bare : element.hasRecord = false := ih read
    exact bare
  | case3 cs _ _ found named =>
    cases h
    exact hasRecord_named named
  | case4 => cases h

/-! ## Descriptions -/

mutual

/-- The value is what the type says: null or an object with just the members of a record in their
order, and null or an array of such values for a list of elements with a record. -/
def Describes : Ty → Json → Prop
  | .record _ fields _, v => v = .null ∨ ∃ members, v = .obj members ∧ DescribesAll fields members
  | .list t _, v => t.hasRecord = true →
      v = .null ∨ ∃ items, v = .arr items ∧ ∀ item ∈ items, Describes t item
  | _, _ => True

/-- The members are what the types of a record say, in their order. -/
def DescribesAll : List (String × Ty) → Dict Json → Prop
  | [], members => members = []
  | (name, t) :: fields, members =>
      ∃ v rest, members = (name, v) :: rest ∧ Describes t v ∧ DescribesAll fields rest

end

theorem describes_null (t : Ty) : t.Describes .null := by
  cases t with
  | record => exact .inl rfl
  | list => exact fun _ => .inl rfl
  | _ => trivial

theorem describes_of_bare {t : Ty} (h : t.hasRecord = false) (v : Json) : t.Describes v := by
  cases t with
  | record => cases h
  | list => exact fun hr => Bool.noConfusion (h.symm.trans hr)
  | _ => trivial

theorem describes_withNullable {t : Ty} {n : Bool} {v : Json} :
    (t.withNullable n).Describes v ↔ t.Describes v := by
  cases t <;> exact Iff.rfl

theorem describes_arr {t : Ty} {n : Bool} {items : List Json}
    (h : ∀ item ∈ items, t.Describes item) : (Ty.list t n).Describes (.arr items) :=
  fun _ => .inr ⟨items, rfl, h⟩

namespace Describes

variable {t u : Ty} {v : Json}

theorem item {items : List Json} (h : t.Describes (.arr items)) (hu : t.element? = some u) :
    ∀ item ∈ items, u.Describes item := by
  intro item hitem
  cases t with
  | list t n =>
    cases hu
    cases ht : u.hasRecord with
    | false => exact describes_of_bare ht item
    | true =>
      rcases h ht with h | ⟨items', h, each⟩
      · cases h
      · cases h
        exact each item hitem
  | _ => cases hu

/-- Some items of a described array. -/
theorem of_subset {items some : List Json} (h : t.Describes (.arr items))
    (hsome : ∀ item ∈ some, item ∈ items) : t.Describes (.arr some) := by
  cases t with
  | record name fields n =>
    rcases h with h | ⟨members, h, -⟩ <;> cases h
  | list t n =>
    apply describes_arr
    intro item hitem
    exact h.item rfl item (hsome item hitem)
  | _ => trivial

end Describes

theorem DescribesAll.find? {fields : List (String × Ty)} {members : Dict Json}
    (h : DescribesAll fields members) (name : String) :
    Option.Rel Describes (Dict.find? fields name) (members.find? name) := by
  induction fields generalizing members with
  | nil =>
    cases h
    exact .none
  | cons field fields ih =>
    obtain ⟨v, rest, rfl, hv, hrest⟩ := h
    rw [Dict.find?_cons, Dict.find?_cons]
    split
    · exact .some hv
    · exact ih hrest

/-- A described object has just the members of its type, and these are described. -/
theorem Describes.find? {t : Ty} (ht : t.hasRecord = true) {members : Dict Json}
    (h : t.Describes (.obj members)) (name : String) :
    Option.Rel Describes (t.member? name) (members.find? name) := by
  cases t with
  | record record fields n =>
    rcases h with h | ⟨members', h, all⟩
    · cases h
    · cases h
      exact all.find? name
  | list t n =>
    rcases h ht with h | ⟨items, h, -⟩ <;> cases h
  | _ => cases ht

end Ty

end FieldPlan
