import FieldPlan.Proofs.Success
import FieldPlan.Schema.Validation

/-!
# Values of argument types

* `Schema.Inhabits` : a value is of a type, at every depth;
* `Schema.checkValue_sound` : what the check of a value gives is of the type, and null only where the
  value was;
* `Schema.Inhabits.checkValue_eq` : a value of the type passes the check unchanged.
-/

namespace FieldPlan

namespace Schema

variable {s : Schema} {argument : String}

/-- A value is of a type: a scalar of its kind, a word of its enumeration, a list of such values, or
an object with declared fields only, all fields that are not null among them and, where the type is
one-of, exactly one field that is set. -/
inductive Inhabits (s : Schema) : Json → InputTy → Prop
  | null {t : InputTy} (h : t.nullable = true) : Inhabits s .null t
  | boolean (b n : Bool) : Inhabits s (.bool b) (.scalar .boolean n)
  | int (i : Int) (n : Bool) : Inhabits s (.int i) (.scalar .int n)
  | float (x : Binary64) (n : Bool) : Inhabits s (.double x) (.scalar .float n)
  | floatOfInt (i : Int) (n : Bool) : Inhabits s (.int i) (.scalar .float n)
  | string (text : String) (n : Bool) : Inhabits s (.str text) (.scalar .string n)
  | id (text : String) (n : Bool) : Inhabits s (.str text) (.scalar .id n)
  | idOfInt (i : Int) (n : Bool) : Inhabits s (.int i) (.scalar .id n)
  | json {v : Json} (n : Bool) (h : v.isNull = false) : Inhabits s v (.scalar .json n)
  | word {name word : String} {e : Enumeration} (n : Bool) (he : s.enums.find? name = some e)
      (hw : word ∈ e.values) : Inhabits s (.str word) (.enum name n)
  | list {items : List Json} {t : InputTy} (n : Bool) (h : ∀ v ∈ items, Inhabits s v t) :
      Inhabits s (.arr items) (.list t n)
  | object {name : String} {input : InputObject} {members : List (String × Json)} (n : Bool)
      (hi : s.inputs.find? name = some input)
      (declared : ∀ m ∈ members, m.1 ∈ input.fields.keys)
      (typed : ∀ m ∈ members, ∀ t, input.fields.find? m.1 = some t → Inhabits s m.2 t)
      (present : ∀ f ∈ input.fields, f.2.nullable = false → f.1 ∈ Dict.keys members)
      (one : input.oneOf = true → (members.filter fun m => !m.2.isNull).length = 1) :
      Inhabits s (.obj members) (.object name n)

theorem nullable_of_inhabits_null {t : InputTy} (h : s.Inhabits .null t) : t.nullable = true := by
  cases h with
  | null h => exact h
  | json n h => cases h

/-! ## Checks of parts -/

theorem checkOneOf_ok {input : InputObject} {members : List (String × Json)} :
    checkOneOf argument input members = .ok () ↔
      (input.oneOf = true → (members.filter fun m => !m.2.isNull).length = 1) := by
  unfold checkOneOf
  cases input.oneOf with
  | false => simp [pure, Except.pure]
  | true => by_cases h : (members.filter fun m => !m.2.isNull).length = 1 <;>
      simp [h, pure, Except.pure, throw, throwThe, MonadExceptOf.throw]

theorem checkPresent_ok {input : InputObject} {members : Dict Json} :
    checkPresent input members = .ok () ↔
      ∀ f ∈ input.fields, f.2.nullable = false → f.1 ∈ members.keys := by
  have absent : List.find? (fun f => !f.2.nullable && !members.contains f.1) input.fields = none ↔
      ∀ f ∈ input.fields, f.2.nullable = false → f.1 ∈ members.keys := by
    simp only [List.find?_eq_none, Bool.and_eq_true, Bool.not_eq_true', not_and,
      Bool.not_eq_false, Dict.contains_iff]
  rw [← absent]
  unfold checkPresent
  split
  · rename_i hf
    rw [hf]
    exact ⟨nofun, nofun⟩
  · rename_i hn
    rw [hn]
    exact ⟨fun _ => rfl, fun _ => rfl⟩

theorem getInput_ok {name : String} {input : InputObject} :
    s.getInput name = .ok input ↔ s.inputs.find? name = some input := by
  unfold getInput
  cases s.inputs.find? name with
  | none => exact ⟨nofun, nofun⟩
  | some i => exact ⟨fun h => by cases h; rfl, fun h => by cases h; rfl⟩

/-! ## What passes is of the type -/

theorem checkAtom_sound {v w : Json} {t : InputTy} (hv : v.isNull = false)
    (h : s.checkAtom argument v t = .ok w) : s.Inhabits w t ∧ w.isNull = false := by
  cases t with
  | scalar scalar n =>
    rw [checkAtom] at h
    split at h
    · rename_i admitted
      cases h
      refine ⟨?_, hv⟩
      cases scalar with
      | json => exact .json n hv
      | _ => cases v <;> cases admitted <;> constructor
    · cases h
  | enum name n =>
    rw [checkAtom] at h
    split at h
    · rename_i admitted
      cases h
      refine ⟨?_, hv⟩
      obtain ⟨e, he, hw⟩ := (Option.any_eq_true _ _).mp admitted
      cases v <;> try cases hw
      exact .word n he (by simpa [Enumeration.admits] using hw)
    · cases h
  | object name n =>
    obtain ⟨input, -, h⟩ := bind_ok.mp h
    cases h
  | list t n => cases h

/-- A single value that stands for a list of one. -/
theorem checkSingle_sound {check : InputTy → Except PlanFault Json}
    (hc : ∀ t w, check t = .ok w → s.Inhabits w t ∧ w.isNull = false) {t : InputTy} {w : Json}
    (h : checkSingle check t = .ok w) : s.Inhabits w t ∧ w.isNull = false := by
  induction t generalizing w with
  | list t n ih =>
    obtain ⟨v, hv, h⟩ := bind_ok.mp h
    cases h
    exact ⟨.list n (List.forall_mem_singleton.mpr (ih hv).1), rfl⟩
  | scalar scalar n => exact hc _ w h
  | enum name n => exact hc _ w h
  | object name n => exact hc _ w h

/-- A member and what its check gives. -/
def MemberChecked (s : Schema) (input : InputObject) (m m' : String × Json) : Prop :=
  m'.1 = m.1 ∧ m'.2.isNull = m.2.isNull ∧
    ∃ t, input.fields.find? m.1 = some t ∧ s.Inhabits m'.2 t

theorem set_of_checked {input : InputObject} {members members' : List (String × Json)}
    (h : List.Forall₂ (s.MemberChecked input) members members') :
    (members'.filter fun m => !m.2.isNull).length = (members.filter fun m => !m.2.isNull).length := by
  induction h with
  | nil => rfl
  | @cons m m' _ _ hm _ ih =>
    rw [List.filter_cons, List.filter_cons, hm.2.1]
    split
    · exact congrArg (· + 1) ih
    · exact ih

theorem inhabits_of_checked {name : String} {input : InputObject}
    {members members' : List (String × Json)} (n : Bool) (hi : s.inputs.find? name = some input)
    (one : checkOneOf argument input members = .ok ())
    (h : List.Forall₂ (s.MemberChecked input) members members')
    (present : checkPresent input members' = .ok ()) :
    s.Inhabits (.obj members') (.object name n) := by
  have checked : ∀ m' ∈ members', ∃ t, input.fields.find? m'.1 = some t ∧ s.Inhabits m'.2 t := by
    intro m' hm'
    obtain ⟨m, -, hname, -, t, ht, hv⟩ := exists_of_forall₂ h hm'
    exact ⟨t, hname ▸ ht, hv⟩
  refine .object n hi (fun m' hm' => ?_) (fun m' hm' t ht => ?_) (checkPresent_ok.mp present)
    fun ho => (set_of_checked h).trans (checkOneOf_ok.mp one ho)
  · obtain ⟨t, ht, -⟩ := checked m' hm'
    by_contra hn
    rw [(Dict.find?_eq_none _ _).mpr hn] at ht
    cases ht
  · obtain ⟨t', ht', hv⟩ := checked m' hm'
    rw [ht] at ht'
    cases ht'
    exact hv

mutual

theorem checkValue_sound (v : Json) (t : InputTy) {w : Json}
    (h : s.checkValue argument v t = .ok w) : s.Inhabits w t ∧ w.isNull = v.isNull := by
  match v with
  | .null =>
    rw [checkValue] at h
    split at h
    · cases h
      exact ⟨.null ‹_›, rfl⟩
    · cases h
  | .bool b => exact checkSingle_sound (fun t w => checkAtom_sound rfl) h
  | .int i => exact checkSingle_sound (fun t w => checkAtom_sound rfl) h
  | .double x => exact checkSingle_sound (fun t w => checkAtom_sound rfl) h
  | .str text => exact checkSingle_sound (fun t w => checkAtom_sound rfl) h
  | .arr items =>
    cases t with
    | list t n =>
      rw [checkValue] at h
      obtain ⟨ws, hws, h⟩ := bind_ok.mp h
      cases h
      exact ⟨.list n (checkItems_sound items t hws), rfl⟩
    | scalar scalar n => exact checkAtom_sound rfl h
    | enum name n => exact checkAtom_sound rfl h
    | object name n => exact checkAtom_sound rfl h
  | .obj members =>
    rw [checkValue] at h
    refine checkSingle_sound (fun t w h => ?_) h
    split at h
    · obtain ⟨input, hi, h⟩ := bind_ok.mp h
      obtain ⟨⟨⟩, one, h⟩ := bind_ok.mp h
      obtain ⟨members', hm, h⟩ := bind_ok.mp h
      obtain ⟨⟨⟩, present, h⟩ := bind_ok.mp h
      cases h
      exact ⟨inhabits_of_checked _ (getInput_ok.mp hi) one (checkMembers_sound input members hm)
        present, rfl⟩
    · exact checkAtom_sound rfl h

theorem checkItems_sound (vs : List Json) (t : InputTy) {ws : List Json}
    (h : s.checkItems argument vs t = .ok ws) : ∀ w ∈ ws, s.Inhabits w t := by
  match vs with
  | [] =>
    cases h
    simp
  | v :: vs =>
    rw [checkItems] at h
    obtain ⟨w, hw, h⟩ := bind_ok.mp h
    obtain ⟨ws', hws, h⟩ := bind_ok.mp h
    cases h
    exact List.forall_mem_cons.mpr ⟨(checkValue_sound v t hw).1, checkItems_sound vs t hws⟩

theorem checkMembers_sound (input : InputObject) (ms : List (String × Json))
    {ms' : List (String × Json)} (h : s.checkMembers argument input ms = .ok ms') :
    List.Forall₂ (s.MemberChecked input) ms ms' := by
  match ms with
  | [] =>
    cases h
    exact .nil
  | (k, v) :: ms =>
    rw [checkMembers] at h
    split at h
    · cases h
    · rename_i t ht
      obtain ⟨w, hw, h⟩ := bind_ok.mp h
      obtain ⟨ms'', hms, h⟩ := bind_ok.mp h
      cases h
      obtain ⟨typed, null⟩ := checkValue_sound v t hw
      exact .cons ⟨rfl, null, t, ht, typed⟩ (checkMembers_sound input ms hms)

end

/-! ## What is of the type passes -/

theorem checkItems_eq {vs : List Json} {t : InputTy}
    (h : ∀ v ∈ vs, s.checkValue argument v t = .ok v) : s.checkItems argument vs t = .ok vs := by
  induction vs with
  | nil => rfl
  | cons v vs ih =>
    obtain ⟨hv, hvs⟩ := List.forall_mem_cons.mp h
    rw [checkItems, hv, ih hvs]
    rfl

theorem checkMembers_eq {input : InputObject} {ms : List (String × Json)}
    (declared : ∀ m ∈ ms, m.1 ∈ input.fields.keys)
    (h : ∀ m ∈ ms, ∀ t, input.fields.find? m.1 = some t → s.checkValue argument m.2 t = .ok m.2) :
    s.checkMembers argument input ms = .ok ms := by
  induction ms with
  | nil => rfl
  | cons m ms ih =>
    obtain ⟨k, v⟩ := m
    obtain ⟨hk, hks⟩ := List.forall_mem_cons.mp declared
    obtain ⟨hv, hvs⟩ := List.forall_mem_cons.mp h
    cases ht : input.fields.find? k with
    | none => exact absurd hk ((Dict.find?_eq_none _ _).mp ht)
    | some t =>
      simp only [checkMembers, ht, hv t ht, ih hks hvs]
      rfl

theorem Inhabits.checkValue_eq {v : Json} {t : InputTy} (h : s.Inhabits v t) :
    s.checkValue argument v t = .ok v := by
  induction h with
  | null h =>
    rw [checkValue, if_pos h]
    rfl
  | @json v n h =>
    cases v with
    | null => cases h
    | _ => rfl
  | @word name word e n he hw =>
    have admitted : ((s.enums.find? name).any (·.admits (.str word))) = true := by
      rw [he]
      simpa [Enumeration.admits] using hw
    exact if_pos admitted
  | list n _ ih =>
    rw [checkValue, checkItems_eq ih]
    rfl
  | @object name input members n hi declared _ present one ih =>
    show (s.getInput name >>= _) = _
    rw [getInput_ok.mpr hi]
    show (checkOneOf argument input members >>= _) = _
    rw [checkOneOf_ok.mpr one]
    show (s.checkMembers argument input members >>= _) = _
    rw [checkMembers_eq declared ih]
    show (checkPresent input members >>= _) = _
    rw [checkPresent_ok.mpr present]
    rfl
  | _ => rfl

end Schema

end FieldPlan
