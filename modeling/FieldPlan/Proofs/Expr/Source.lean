import FieldPlan.Proofs.Expr.Translation

/-!
# Sources

The value of a field is read from the value of its owner by expressions that bind nothing.

* `Expr.Source` : parameters and constants, members and slices of sources, and calls on them;
* `Expr.Called` : sources that start with a call; the ones in which a service occurs
  (`Source.called`);
* `Source.value_of_eqv`, `Called.value_of_eqv`, `Called.ty_of_eqv` : structurally equal sources have
  equal values, and the very same value and type if they start with a call.
-/

namespace FieldPlan

namespace Json

theorem readMember_of_eqv {v w u : Json} {name : String} (h : eqv v w = true)
    (hv : v.readMember name = some u) : ∃ u', w.readMember name = some u' ∧ eqv u u' = true := by
  cases v with
  | null =>
    cases w <;> simp [eqv] at h
    exact ⟨.null, rfl, by cases hv; rfl⟩
  | obj as =>
    cases w with
    | obj bs =>
      cases hv
      rcases find?_eqv h name with ⟨a, b, ha, hb, hab⟩ | ⟨ha, hb⟩
      · exact ⟨b, by simp [readMember, hb], by simpa [ha] using hab⟩
      · exact ⟨.null, by simp [readMember, hb], by simp [ha, eqv]⟩
    | _ => simp [eqv] at h
  | _ => cases hv

theorem eqvItems_drop {as bs : List Json} (h : eqvItems as bs = true) (n : Nat) :
    eqvItems (as.drop n) (bs.drop n) = true := by
  induction n generalizing as bs with
  | zero => exact h
  | succ n ih =>
    match as, bs, h with
    | [], [], _ => rfl
    | _ :: as, _ :: bs, h =>
      simp only [eqvItems, Bool.and_eq_true] at h
      exact ih h.2

theorem eqvItems_take {as bs : List Json} (h : eqvItems as bs = true) (n : Nat) :
    eqvItems (as.take n) (bs.take n) = true := by
  induction n generalizing as bs with
  | zero => rfl
  | succ n ih =>
    match as, bs, h with
    | [], [], _ => rfl
    | _ :: as, _ :: bs, h =>
      simp only [eqvItems, Bool.and_eq_true] at h
      simp [eqvItems, h.1, ih h.2]

/-- A slice of the value of a list; null stays null. -/
def sliced (function : Builtin) (v : Json) (count : Json) : Option Json :=
  match v with
  | .null => some .null
  | .arr items => sliceItems function items count
  | _ => none

theorem sliced_of_eqv {f : Builtin} {v w u n : Json} (h : eqv v w = true)
    (hv : v.sliced f n = some u) : ∃ u', w.sliced f n = some u' ∧ eqv u u' = true := by
  cases v with
  | null =>
    cases w <;> simp [eqv] at h
    exact ⟨.null, rfl, by cases hv; rfl⟩
  | arr as =>
    cases w with
    | arr bs =>
      simp only [sliced, sliceItems] at hv ⊢
      cases hn : n.toNat? with
      | none => simp [hn] at hv
      | some k =>
        simp only [hn, Option.map_some, Option.some.injEq] at hv ⊢
        subst hv
        refine ⟨_, rfl, ?_⟩
        split
        · exact eqvItems_drop h k
        · exact eqvItems_take h k
    | _ => simp [eqv] at h
  | _ => cases hv

end Json

namespace Expr

/-! ## Sources -/

/-- Expressions that read a value and bind nothing. -/
inductive Source : Expr → Prop
  | param (p : Param) : Source (.param p)
  | constant (v : Json) (t : Ty) : Source (.constant v t)
  | member {target : Expr} (name : String) (t : Ty) :
    Source target → Source (.member target name t)
  | slice {list : Expr} (f : Builtin) (n : Int) (t : Ty) (h : f = .skip ∨ f = .take) :
    Source list → Source (.builtin f [list, .constant (.int n) t])
  | call {r : Expr} {args : List Expr} (method : String) (t : Ty)
    (h : (∃ s, r = .service s) ∨ ∃ p, r = .param p) :
    (∀ a ∈ args, Source a) → Source (.invoke r method args t)

/-- Sources that start with a call. -/
inductive Called : Expr → Prop
  | call (r : Expr) (method : String) (args : List Expr) (t : Ty) :
    Called (.invoke r method args t)
  | member {target : Expr} (name : String) (t : Ty) :
    Called target → Called (.member target name t)
  | slice {list : Expr} (f : Builtin) (n : Int) (t : Ty) (h : f = .skip ∨ f = .take) :
    Called list → Called (.builtin f [list, .constant (.int n) t])

section Values

variable {answers : Answers} {ρ : Scope}

@[simp] theorem sortValue_nil (v : Option Json) : sortValue [] v = v := by
  cases v <;> rfl

@[simp] theorem value_param (p : Param) : (Expr.param p).value answers ρ = ρ.value p := by
  simp [value, valueUnder]

@[simp] theorem value_constant (v : Json) (t : Ty) :
    (Expr.constant v t).value answers ρ = some v := by
  simp [value, valueUnder]

theorem value_member (target : Expr) (name : String) (t : Ty) :
    (Expr.member target name t).value answers ρ =
      (target.value answers ρ).bind (Json.readMember name) := by
  simp [value, valueUnder]

theorem value_slice (list : Expr) {f : Builtin} (h : f = .skip ∨ f = .take) (n : Int) (t : Ty) :
    (Expr.builtin f [list, .constant (.int n) t]).value answers ρ =
      (list.value answers ρ).bind fun v => v.sliced f (.int n) := by
  rcases h with rfl | rfl <;> simp only [value, valueUnder, valueHead, sortValue_nil]
  all_goals
    cases list.valueUnder answers ρ [] with
    | none => rfl
    | some v => cases v <;> rfl

theorem value_call (r : Expr) (method : String) (args : List Expr) (t : Ty) :
    (Expr.invoke r method args t).value answers ρ =
      (ρ.receiver r).bind fun name => (valueList answers args ρ).bind fun vs =>
        (answers name method vs).toOption := by
  simp only [value, valueUnder, sortValue_nil]
  rfl

/-! ## Structurally equal sources -/

theorem receiver_of_eqv {r r' : Expr} (hr : (∃ s, r = .service s) ∨ ∃ p, r = .param p)
    (h : eqv r r' = true) : ρ.receiver r' = ρ.receiver r := by
  rcases hr with ⟨s, rfl⟩ | ⟨p, rfl⟩
  · cases r' <;> simp [eqv] at h
    rw [h]
  · cases r' <;> simp [eqv] at h
    simp [Scope.receiver, h]

theorem valueList_of_eqv {args args' : List Expr} (h : eqvList args args' = true)
    (ih : ∀ a ∈ args, ∀ a', eqv a a' = true → ∀ v, a.value answers ρ = some v →
      ∃ v', a'.value answers ρ = some v' ∧ Json.eqv v v' = true)
    {vs : List Json} (hv : valueList answers args ρ = some vs) :
    ∃ vs', valueList answers args' ρ = some vs' ∧ Json.eqvItems vs vs' = true := by
  induction args generalizing args' vs with
  | nil =>
    cases args' with
    | nil =>
      cases hv
      exact ⟨[], rfl, rfl⟩
    | cons _ _ => simp [eqvList] at h
  | cons a args rest =>
    cases args' with
    | nil => simp [eqvList] at h
    | cons a' args' =>
      simp only [eqvList, Bool.and_eq_true] at h
      cases ha : a.value answers ρ with
      | none => simp only [value] at ha; simp [valueList, ha] at hv
      | some v =>
        cases hs : valueList answers args ρ with
        | none => simp only [value] at ha; simp [valueList, ha, hs] at hv
        | some ws =>
          obtain ⟨v', hv', he⟩ := ih a (by simp) a' h.1 v ha
          obtain ⟨ws', hws', hes⟩ := rest h.2 (fun b hb => ih b (by simp [hb])) hs
          simp only [value] at ha hv'
          simp [valueList, ha, hs] at hv
          subst hv
          exact ⟨v' :: ws', by simp [valueList, hv', hws'], by simp [Json.eqvItems, he, hes]⟩

theorem eqv_slice {f : Builtin} {list u' : Expr} {n : Int} {t : Ty}
    (h : eqv (.builtin f [list, .constant (.int n) t]) u' = true) :
    ∃ list', u' = .builtin f [list', .constant (.int n) t] ∧ eqv list list' = true := by
  cases u' <;> simp [eqv] at h
  rename_i g args
  obtain ⟨rfl, h⟩ := h
  rcases args with _ | ⟨list', _ | ⟨c, _ | ⟨_, _⟩⟩⟩ <;> simp [eqvList] at h
  obtain ⟨hl, hc⟩ := h
  cases c <;> simp [eqv] at hc
  rename_i w t'
  obtain ⟨hw, rfl⟩ := hc
  cases w <;> simp [BEq.beq, Json.eqv] at hw
  exact ⟨list', by rw [hw], hl⟩

/-- Structurally equal sources have equal values. -/
theorem Source.value_of_eqv (respect : answers.Respect) {u u' : Expr} (hu : u.Source)
    (h : eqv u u' = true) {v : Json} (hv : u.value answers ρ = some v) :
    ∃ v', u'.value answers ρ = some v' ∧ Json.eqv v v' = true := by
  induction hu generalizing u' v with
  | param p =>
    cases u' <;> simp [eqv] at h
    refine ⟨v, ?_, Json.eqv_refl v⟩
    simp only [value_param, Scope.value] at hv ⊢
    rwa [← h]
  | constant w t =>
    cases u' <;> simp [eqv] at h
    rw [value_constant] at hv
    cases hv
    exact ⟨_, value_constant _ _, h.1⟩
  | member name t _ ih =>
    cases u' <;> simp [eqv] at h
    rename_i target' name' t'
    obtain ⟨⟨ht, rfl⟩, -⟩ := h
    rw [value_member] at hv
    obtain ⟨w, hw, hm⟩ := Option.bind_eq_some_iff.mp hv
    obtain ⟨w', hw', he⟩ := ih ht hw
    obtain ⟨u, hu, he'⟩ := Json.readMember_of_eqv he hm
    exact ⟨u, by rw [value_member, hw']; exact hu, he'⟩
  | slice f n t hf _ ih =>
    obtain ⟨list', rfl, hl⟩ := eqv_slice h
    rw [value_slice _ hf] at hv
    obtain ⟨w, hw, hs⟩ := Option.bind_eq_some_iff.mp hv
    obtain ⟨w', hw', he⟩ := ih hl hw
    obtain ⟨u, hu, he'⟩ := Json.sliced_of_eqv he hs
    exact ⟨u, by rw [value_slice _ hf, hw']; exact hu, he'⟩
  | call method t hr _ ih =>
    cases u' <;> simp [eqv] at h
    rename_i r _ r' method' args' t'
    obtain ⟨⟨⟨hrr, rfl⟩, ha⟩, -⟩ := h
    rw [value_call] at hv
    obtain ⟨name, hn, hv⟩ := Option.bind_eq_some_iff.mp hv
    obtain ⟨vs, hvs, hv⟩ := Option.bind_eq_some_iff.mp hv
    obtain ⟨vs', hvs', he⟩ := valueList_of_eqv ha (fun a ha a' h v hv => ih a ha h hv) hvs
    refine ⟨v, ?_, Json.eqv_refl v⟩
    rw [value_call, receiver_of_eqv hr hrr, hn]
    simp only [Option.bind_some, hvs']
    rw [← respect name method vs vs' he]
    exact hv

/-- Structurally equal sources that start with a call have the same value. -/
theorem Called.value_of_eqv (respect : answers.Respect) {u u' : Expr} (hu : u.Source)
    (hc : u.Called) (h : eqv u u' = true) {v : Json} (hv : u.value answers ρ = some v) :
    u'.value answers ρ = some v := by
  induction hu generalizing u' v with
  | param p => cases hc
  | constant w t => cases hc
  | member name t _ ih =>
    cases hc with
    | member _ _ hc =>
      cases u' <;> simp [eqv] at h
      obtain ⟨⟨ht, rfl⟩, -⟩ := h
      rw [value_member] at hv ⊢
      obtain ⟨w, hw, hm⟩ := Option.bind_eq_some_iff.mp hv
      rw [ih hc ht hw]
      exact hm
  | slice f n t hf _ ih =>
    cases hc with
    | slice _ _ _ _ hc =>
      obtain ⟨list', rfl, hl⟩ := eqv_slice h
      rw [value_slice _ hf] at hv ⊢
      obtain ⟨w, hw, hs⟩ := Option.bind_eq_some_iff.mp hv
      rw [ih hc hl hw]
      exact hs
  | call method t hr ha =>
    cases u' <;> simp [eqv] at h
    rename_i r' method' args' t'
    obtain ⟨⟨⟨hrr, rfl⟩, hargs⟩, -⟩ := h
    rw [value_call] at hv ⊢
    obtain ⟨name, hn, hv⟩ := Option.bind_eq_some_iff.mp hv
    obtain ⟨vs, hvs, hv⟩ := Option.bind_eq_some_iff.mp hv
    obtain ⟨vs', hvs', he⟩ := valueList_of_eqv hargs
      (fun a hm a' h v hv => (ha a hm).value_of_eqv respect h hv) hvs
    rw [receiver_of_eqv hr hrr, hn]
    simp only [Option.bind_some, hvs']
    rw [← respect name method vs vs' he]
    exact hv

/-- Structurally equal sources that start with a call have the same type. -/
theorem Called.ty_of_eqv {u u' : Expr} (hc : u.Called) (h : eqv u u' = true) : u'.ty = u.ty := by
  induction hc generalizing u' with
  | call =>
    cases u' <;> simp [eqv] at h
    exact h.2.symm
  | member =>
    cases u' <;> simp [eqv] at h
    exact h.2.symm
  | slice f n t hf _ ih =>
    obtain ⟨list', rfl, hl⟩ := eqv_slice h
    rcases hf with rfl | rfl <;> simpa [Expr.ty, headTy] using ih hl

theorem Called.sameFront_of_eqv {u u' : Expr} (hc : u.Called) (h : eqv u u' = true) {p : Param}
    (hp : p.ty = u.ty) : u'.SameFront (.param p) := by
  refine ⟨hp.trans (hc.ty_of_eqv h).symm, ?_, ?_⟩
  all_goals cases hc <;> cases u' <;> simp [eqv] at h <;> rfl

end Values

/-! ## Services in sources -/

/-- A source in which a service occurs starts with a call. -/
theorem Source.called {e : Expr} (h : e.Source) (hs : ∃ s, .service s ∈ e.subterms) :
    e.Called := by
  induction h with
  | param p => simp [subterms] at hs
  | constant v t => simp [subterms] at hs
  | member name t _ ih =>
    refine .member name t (ih ?_)
    simpa [subterms] using hs
  | slice f n t hf _ ih =>
    refine .slice f n t hf (ih ?_)
    simpa [subterms, subtermsList] using hs
  | call method t hr ha ih => exact .call _ _ _ _

theorem Source.binders {e : Expr} (h : e.Source) : ∀ x ∈ e.subterms, x.bound? = none := by
  induction h with
  | param | constant => simp [subterms, bound?]
  | member _ _ _ ih => simpa [subterms, bound?] using ih
  | slice _ _ _ _ _ ih => simpa [subterms, subtermsList, bound?, or_imp, forall_and] using ih
  | call _ _ hr _ ih =>
    intro x hx
    rcases mem_subterms.mp hx with rfl | ⟨c, hc, hxc⟩
    · rfl
    · rcases List.mem_cons.mp hc with rfl | hc
      · rcases hr with ⟨s, rfl⟩ | ⟨p, rfl⟩ <;> cases List.mem_singleton.mp hxc <;> rfl
      · exact ih c hc x hxc

end Expr

end FieldPlan
