import FieldPlan.Binary64
import FieldPlan.Dict

/-!
# JSON values

* `Json` : values; a number is an integer or a double, and an object keeps the order of its keys;
* `Json.eqv` : equality of values, where objects are equal in any order of their keys, an integer
  never equals a double, and the two double zeros are equal; it is reflexive, and equal objects have
  equal members (`eqv_refl`, `find?_eqv`);
* `Json.toNat?` : the value as a count, from an integer that is not negative.
-/

namespace FieldPlan

inductive Json where
  | null
  | bool (b : Bool)
  | int (n : Int)
  | double (x : Binary64)
  | str (s : String)
  | arr (items : List Json)
  | obj (members : List (String × Json))
deriving Inhabited

namespace Json

mutual

def eqv : Json → Json → Bool
  | .null, .null => true
  | .bool a, .bool b => a == b
  | .int a, .int b => a == b
  | .double a, .double b => a == b
  | .str a, .str b => a == b
  | .arr a, .arr b => eqvItems a b
  | .obj a, .obj b => eqvMembers [] a b && b.all fun m => Dict.contains a m.1
  | _, _ => false

def eqvItems : List Json → List Json → Bool
  | [], [] => true
  | a :: as, b :: bs => eqv a b && eqvItems as bs
  | _, _ => false

/-- Whether every member of the first object has an equal one in the second, keys that were `seen`
apart. -/
def eqvMembers : List String → List (String × Json) → List (String × Json) → Bool
  | _, [], _ => true
  | seen, (k, a) :: as, bs =>
    (seen.contains k || match Dict.find? bs k with
      | some b => eqv a b
      | none => false) && eqvMembers (k :: seen) as bs

end

instance : BEq Json := ⟨eqv⟩

/-! ## Equality of values -/

mutual

theorem eqv_refl (v : Json) : eqv v v = true := by
  match v with
  | .null => rfl
  | .bool _ | .int _ | .str _ => simp [eqv]
  | .double x => simp [eqv, Binary64.beq_iff]
  | .arr items => simpa [eqv] using eqvItems_refl items
  | .obj members =>
    have hkeys : members.all (fun m => Dict.contains members m.1) = true := by
      simp only [List.all_eq_true, Dict.contains, List.any_eq_true]
      exact fun m hm => ⟨m, hm, by simp⟩
    simpa [eqv, hkeys] using eqvMembers_refl members [] members (fun _ _ => rfl)

theorem eqvItems_refl (items : List Json) : eqvItems items items = true := by
  match items with
  | [] => rfl
  | v :: vs => simp [eqvItems, eqv_refl v, eqvItems_refl vs]

theorem eqvMembers_refl (rest : List (String × Json)) (seen : List String)
    (members : List (String × Json))
    (h : ∀ k, k ∉ seen → Dict.find? members k = Dict.find? rest k) :
    eqvMembers seen rest members = true := by
  match rest with
  | [] => rfl
  | (k, v) :: rest =>
    have htail := eqvMembers_refl rest (k :: seen) members fun k' hk' => by
      rw [h k' (fun hs => hk' (List.mem_cons_of_mem _ hs)), Dict.find?_cons,
        if_neg (fun he : k = k' => hk' (by simp [he]))]
    by_cases hk : k ∈ seen
    · simp [eqvMembers, hk, htail]
    · simp [eqvMembers, hk, htail, h k hk, Dict.find?_cons, eqv_refl v]

end

theorem find?_of_eqvMembers {as bs : List (String × Json)} {seen : List String} {k : String}
    {v : Json} (h : eqvMembers seen as bs = true) (hk : k ∉ seen)
    (hv : Dict.find? as k = some v) : ∃ w, Dict.find? bs k = some w ∧ eqv v w = true := by
  induction as generalizing seen with
  | nil => simp at hv
  | cons a as ih =>
    obtain ⟨k', a⟩ := a
    simp only [eqvMembers, Bool.and_eq_true, Bool.or_eq_true] at h
    rw [Dict.find?_cons] at hv
    split at hv
    case isTrue he =>
      subst he
      cases hv
      rcases h.1 with hs | hm
      · simp [hk] at hs
      · split at hm
        · exact ⟨_, ‹_›, hm⟩
        · cases hm
    case isFalse hne =>
      exact ih h.2 (by simp [hk, Ne.symm hne]) hv

/-- Equal objects have equal members, and lack the same ones. -/
theorem find?_eqv {as bs : List (String × Json)} (h : eqv (.obj as) (.obj bs) = true) (k : String) :
    (∃ v w, Dict.find? as k = some v ∧ Dict.find? bs k = some w ∧ eqv v w = true) ∨
      (Dict.find? as k = none ∧ Dict.find? bs k = none) := by
  simp only [eqv, Bool.and_eq_true] at h
  cases hv : Dict.find? as k with
  | some v =>
    obtain ⟨w, hw, he⟩ := find?_of_eqvMembers h.1 (by simp) hv
    exact .inl ⟨v, w, rfl, hw, he⟩
  | none =>
    refine .inr ⟨rfl, ?_⟩
    rw [Dict.find?_eq_none] at hv ⊢
    intro hk
    obtain ⟨m, hm, rfl⟩ := List.mem_map.1 hk
    exact hv ((Dict.contains_iff _ _).1 (List.all_eq_true.1 h.2 m hm))

/-! ## Views -/

/-- Whether the value is null. -/
def isNull : Json → Bool
  | .null => true
  | _ => false

def toNat? : Json → Option Nat
  | .int n => if 0 ≤ n then some n.toNat else none
  | _ => none

def toStr? : Json → Option String
  | .str s => some s
  | _ => none

def find? (v : Json) (key : String) : Option Json :=
  match v with
  | .obj members => Dict.find? members key
  | _ => none

/-- The kinds of values in the order in which values of different kinds are sorted. -/
def rank : Json → Nat
  | .null => 0
  | .bool _ => 1
  | .int _ | .double _ => 2
  | .str _ => 3
  | .arr _ => 4
  | .obj _ => 5

end Json

end FieldPlan
