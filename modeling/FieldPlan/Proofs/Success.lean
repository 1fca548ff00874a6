import Mathlib.Data.List.Forall2

/-!
# Computations that succeed

What a success says about the steps of a computation that may fail, with and without a state, and
what its errors can be.

* `bind_ok`, `run_bind_ok` : both steps succeeded;
* `okOf` : the result of a computation that succeeds;
* `mapM_ok`, `mapM_error` : the results of a map, one by one, and where it fails;
* `mapM_forall₂`, `forall₂_of_left` : maps with corresponding results, and what corresponds to the same;
* `mapM_eq_pure`, `mapM_paired` : maps whose steps only return, and whose steps return their item too;
* `foldlM_congr`, `foldlM_fixed` : folds with the same steps, and with steps that change nothing;
* `foldlM_ok`, `run_foldlM_ok` : what every step of a fold keeps holds at its end;
* `Fails` : computations all of whose errors satisfy a predicate;
* `Succeeds` : a computation that succeeds from a state;
* `exec_bind`, `exec_bind_iff`, `exec_forM_ok` : steps, and loops of them, whose state outlives a failure.
-/

namespace FieldPlan

variable {ε α β σ : Type}

/-! ## Without a state -/

theorem bind_ok {x : Except ε α} {k : α → Except ε β} {b : β} :
    (x >>= k) = .ok b ↔ ∃ a, x = .ok a ∧ k a = .ok b := by
  cases x <;> simp [Bind.bind, Except.bind]

theorem mapError_ok {ε' : Type} {x : Except ε α} {f : ε → ε'} {a : α} :
    x.mapError f = .ok a ↔ x = .ok a := by
  cases x <;> simp [Except.mapError]

theorem mapM_ok {f : α → Except ε β} {as : List α} {bs : List β} (h : as.mapM f = .ok bs) :
    List.Forall₂ (fun a b => f a = .ok b) as bs := by
  induction as generalizing bs with
  | nil =>
    cases h
    exact .nil
  | cons a as ih =>
    rw [List.mapM_cons] at h
    obtain ⟨b, hb, h⟩ := bind_ok.mp h
    obtain ⟨bs', hbs, h⟩ := bind_ok.mp h
    cases h
    exact .cons hb (ih hbs)

theorem mapM_error {f : α → Except ε β} {as : List α} {e : ε} :
    as.mapM f = .error e ↔ ∃ before a after, as = before ++ a :: after ∧
      (∀ b ∈ before, ∃ v, f b = .ok v) ∧ f a = .error e := by
  induction as with
  | nil => exact ⟨nofun, fun ⟨before, _, _, h, _⟩ => by simp at h⟩
  | cons a as ih =>
    rw [List.mapM_cons]
    constructor
    · intro h
      cases ha : f a with
      | error e' =>
        rw [ha] at h
        cases h
        exact ⟨[], a, as, rfl, by simp, ha⟩
      | ok v =>
        rw [ha] at h
        cases hr : as.mapM f with
        | ok vs =>
          rw [hr] at h
          cases h
        | error e' =>
          rw [hr] at h
          cases h
          obtain ⟨before, x, after, rfl, hbefore, hx⟩ := ih.mp hr
          exact ⟨a :: before, x, after, rfl, List.forall_mem_cons.mpr ⟨⟨v, ha⟩, hbefore⟩, hx⟩
    · rintro ⟨before, x, after, has, hbefore, hx⟩
      cases before with
      | nil =>
        cases has
        rw [hx]
        rfl
      | cons b before =>
        cases has
        obtain ⟨⟨v, hv⟩, hrest⟩ := List.forall_mem_cons.mp hbefore
        rw [hv, ih.mpr ⟨before, x, after, rfl, hrest, hx⟩]
        rfl

theorem mapM_forall₂ {γ δ : Type} {f : α → Except ε β} {g : γ → Except ε δ} {r : δ → β} {as : List α}
    {cs : List γ} (h : List.Forall₂ (fun a c => f a = (g c).map r) as cs) :
    as.mapM f = (cs.mapM g).map (List.map r) := by
  induction h with
  | nil => rfl
  | @cons a c as cs hac _ ih =>
    rw [List.mapM_cons, List.mapM_cons, hac, ih]
    cases g c with
    | error e => rfl
    | ok d => cases cs.mapM g <;> rfl

theorem exists_of_forall₂ {R : α → β → Prop} {as : List α} {bs : List β}
    (h : List.Forall₂ R as bs) {b : β} (hb : b ∈ bs) : ∃ a ∈ as, R a b := by
  induction h with
  | nil => simp at hb
  | cons hab _ ih =>
    rcases List.mem_cons.mp hb with rfl | hb
    · exact ⟨_, List.mem_cons_self, hab⟩
    · obtain ⟨a, ha, hab⟩ := ih hb
      exact ⟨a, List.mem_cons_of_mem _ ha, hab⟩

theorem forall₂_of_left {γ : Type} {R : α → β → Prop} {S : α → γ → Prop} {Q : β → γ → Prop}
    {as : List α} {bs : List β} {cs : List γ} (h : List.Forall₂ R as bs) (h' : List.Forall₂ S as cs)
    (hq : ∀ a ∈ as, ∀ b c, R a b → S a c → Q b c) : List.Forall₂ Q bs cs := by
  induction h generalizing cs with
  | nil =>
    cases h'
    exact .nil
  | cons hab _ ih =>
    obtain ⟨hfirst, hrest⟩ := List.forall_mem_cons.mp hq
    cases h' with
    | cons hac hall => exact .cons (hfirst _ _ hab hac) (ih hall hrest)

theorem exists_of_mapM_ok {f : α → Except ε β} {as : List α} {bs : List β}
    (h : as.mapM f = .ok bs) {b : β} (hb : b ∈ bs) : ∃ a ∈ as, f a = .ok b :=
  exists_of_forall₂ (mapM_ok h) hb

/-- What every step of a fold keeps holds at its end; `done` are the items that went before. -/
theorem foldlM_ok {f : β → α → Except ε β} (P : List α → β → Prop) {as : List α} {b b' : β}
    (h : as.foldlM f b = .ok b') (start : P [] b)
    (step : ∀ done a rest b b', as = done ++ a :: rest → P done b → f b a = .ok b' →
      P (done ++ [a]) b') : P as b' := by
  suffices from_done : ∀ rest done b, as = done ++ rest → P done b →
      rest.foldlM f b = .ok b' → P as b' from from_done as [] b rfl start h
  intro rest
  induction rest with
  | nil =>
    intro done b has hd hr
    cases hr
    simpa [has] using hd
  | cons a rest ih =>
    intro done b has hd hr
    rw [List.foldlM_cons] at hr
    obtain ⟨c, hc, hr⟩ := bind_ok.mp hr
    exact ih (done ++ [a]) c (by simp [has]) (step done a rest b c has hd hc) hr

/-- Steps that are the same from where they are taken make the same fold. -/
theorem foldlM_congr {f g : β → α → Except ε β} {as : List α} (h : ∀ a ∈ as, ∀ b, f b a = g b a)
    (b : β) : as.foldlM f b = as.foldlM g b := by
  induction as generalizing b with
  | nil => rfl
  | cons a as ih =>
    obtain ⟨hfirst, hrest⟩ := List.forall_mem_cons.mp h
    rw [List.foldlM_cons, List.foldlM_cons, hfirst]
    exact bind_congr fun b => ih hrest b

/-- A fold whose steps change nothing. -/
theorem foldlM_fixed {f : β → α → Except ε β} {as : List α} {b : β} (h : ∀ a ∈ as, f b a = .ok b) :
    as.foldlM f b = .ok b := by
  induction as with
  | nil => rfl
  | cons a as ih =>
    obtain ⟨hfirst, hrest⟩ := List.forall_mem_cons.mp h
    rw [List.foldlM_cons, hfirst]
    exact ih hrest

/-- The result of a computation that succeeds. -/
def okOf : (x : Except ε α) → x.isOk = true → α
  | .ok a, _ => a

theorem eq_okOf (x : Except ε α) (h : x.isOk = true) : x = .ok (okOf x h) := by
  cases x with
  | ok a => rfl
  | error e => cases h

/-! ## In any monad -/

theorem mapM_eq_pure {m : Type → Type} [Monad m] [LawfulMonad m] {α β : Type} {f : α → m β}
    {g : α → β} (as : List α) (h : ∀ a ∈ as, f a = pure (g a)) : as.mapM f = pure (as.map g) := by
  induction as with
  | nil => rfl
  | cons a as ih =>
    rw [List.mapM_cons, h a List.mem_cons_self, ih fun b hb => h b (List.mem_cons_of_mem _ hb)]
    simp

/-- A map that keeps each item beside its result. -/
theorem mapM_paired {m : Type → Type} [Monad m] [LawfulMonad m] {α β : Type} (f : α → m β)
    (as : List α) :
    (as.mapM fun a => do let b ← f a; pure (b, a)) = (do let bs ← as.mapM f; pure (bs.zip as)) := by
  induction as with
  | nil => simp
  | cons a as ih =>
    rw [List.mapM_cons, List.mapM_cons, ih]
    simp

/-! ## Errors -/

/-- All errors of a computation satisfy a predicate. -/
def Fails (P : ε → Prop) (x : Except ε α) : Prop := ∀ e, x = .error e → P e

namespace Fails

variable {P : ε → Prop}

theorem pure (a : α) : Fails P (Pure.pure a : Except ε α) := by
  intro e h
  cases h

theorem throw {e : ε} (h : P e) : Fails P (MonadExcept.throw e : Except ε α) := by
  intro e' h'
  cases h'
  exact h

theorem bind {x : Except ε α} {k : α → Except ε β} (hx : Fails P x) (hk : ∀ a, Fails P (k a)) :
    Fails P (x >>= k) := by
  intro e h
  cases ha : x with
  | error e' =>
    rw [ha] at h
    cases h
    exact hx e ha
  | ok a =>
    rw [ha] at h
    exact hk a e h

theorem foldlM {f : β → α → Except ε β} (hf : ∀ b a, Fails P (f b a)) (as : List α) (b : β) :
    Fails P (as.foldlM f b) := by
  induction as generalizing b with
  | nil => exact pure b
  | cons a as ih =>
    rw [List.foldlM_cons]
    exact bind (hf b a) ih

theorem mono {Q : ε → Prop} {x : Except ε α} (h : Fails P x) (hpq : ∀ e, P e → Q e) : Fails Q x :=
  fun e he => hpq e (h e he)

end Fails

/-! ## With a state -/

theorem run_bind_ok {x : StateT σ (Except ε) α} {k : α → StateT σ (Except ε) β} {s : σ}
    {r : β × σ} : (x >>= k) s = .ok r ↔ ∃ a s', x s = .ok (a, s') ∧ k a s' = .ok r := by
  show (x s >>= fun p => k p.1 p.2) = .ok r ↔ _
  rw [bind_ok]
  exact ⟨fun ⟨⟨a, s'⟩, h⟩ => ⟨a, s', h⟩, fun ⟨a, s', h⟩ => ⟨⟨a, s'⟩, h⟩⟩

theorem run_get {k : σ → StateT σ (Except ε) β} {s : σ} : (get >>= k) s = k s s := rfl

theorem run_pure_ok {a b : α} {s s' : σ} :
    (pure a : StateT σ (Except ε) α) s = .ok (b, s') ↔ a = b ∧ s = s' := by
  show Except.ok (a, s) = .ok (b, s') ↔ _
  simp

theorem run_lift_ok {x : Except ε α} {s : σ} {r : α × σ} :
    (StateT.lift x : StateT σ (Except ε) α) s = .ok r ↔ x = .ok r.1 ∧ r.2 = s := by
  show (x >>= fun a => pure (a, s)) = .ok r ↔ _
  rw [bind_ok]
  constructor
  · rintro ⟨a, rfl, h⟩
    cases h
    exact ⟨rfl, rfl⟩
  · rintro ⟨hx, hs⟩
    exact ⟨r.1, hx, by rw [← hs]; rfl⟩

/-- What every step of a fold keeps holds at its end; `done` are the items that went before. -/
theorem run_foldlM_ok {f : β → α → StateT σ (Except ε) β} (P : List α → β → σ → Prop)
    {as : List α} {b b' : β} {s s' : σ} (h : as.foldlM f b s = .ok (b', s')) (start : P [] b s)
    (step : ∀ done a rest b s b' s', as = done ++ a :: rest → P done b s →
      f b a s = .ok (b', s') → P (done ++ [a]) b' s') : P as b' s' := by
  suffices from_done : ∀ rest done b s, as = done ++ rest → P done b s →
      rest.foldlM f b s = .ok (b', s') → P as b' s' from from_done as [] b s rfl start h
  intro rest
  induction rest with
  | nil =>
    intro done b s has hd hr
    obtain ⟨rfl, rfl⟩ := run_pure_ok.mp hr
    simpa [has] using hd
  | cons a rest ih =>
    intro done b s has hd hr
    rw [List.foldlM_cons] at hr
    obtain ⟨c, t, hc, hr⟩ := run_bind_ok.mp hr
    exact ih (done ++ [a]) c t (by simp [has]) (step done a rest b s c t has hd hc) hr

def Succeeds (x : StateT σ (Except ε) α) (s : σ) : Prop := ∃ a s', x s = .ok (a, s')

theorem Succeeds.pure (a : α) (s : σ) : Succeeds (Pure.pure a : StateT σ (Except ε) α) s :=
  ⟨a, s, rfl⟩

theorem Succeeds.bind {x : StateT σ (Except ε) α} {k : α → StateT σ (Except ε) β} {s s' : σ} {a : α}
    (hx : x s = .ok (a, s')) (hk : Succeeds (k a) s') : Succeeds (x >>= k) s := by
  obtain ⟨b, t, hb⟩ := hk
  exact ⟨b, t, run_bind_ok.mpr ⟨a, s', hx, hb⟩⟩

/-! ## With a state that outlives failures -/

theorem exec_bind (x : ExceptT ε (StateM σ) α) (k : α → ExceptT ε (StateM σ) β) (s : σ) :
    (x >>= k) s =
      match x s with
      | (.ok a, next) => k a next
      | (.error e, next) => (.error e, next) := by
  simp only [Bind.bind, ExceptT.bind, ExceptT.mk, StateT.bind]
  rcases x s with ⟨_ | _, _⟩ <;> rfl

theorem exec_bind_ok {x : ExceptT ε (StateM σ) α} {k : α → ExceptT ε (StateM σ) β} {s next : σ} {a : α}
    (h : x s = (.ok a, next)) : (x >>= k) s = k a next := by
  rw [exec_bind, h]

theorem exec_bind_iff {x : ExceptT ε (StateM σ) α} {k : α → ExceptT ε (StateM σ) β} {s t : σ} {b : β} :
    (x >>= k) s = (.ok b, t) ↔ ∃ a next, x s = (.ok a, next) ∧ k a next = (.ok b, t) := by
  rw [exec_bind]
  rcases x s with ⟨e | a, next⟩
  · exact ⟨nofun, nofun⟩
  · exact ⟨fun h => ⟨a, next, rfl, h⟩, by rintro ⟨_, _, ⟨⟩, h⟩; exact h⟩

theorem exec_lift_iff {x : Except ε α} {s t : σ} {a : α} :
    (liftM x : ExceptT ε (StateM σ) α) s = (.ok a, t) ↔ x = .ok a ∧ s = t := by
  show ((x, s) : Except ε α × σ) = _ ↔ _
  exact Prod.mk.injEq .. ▸ Iff.rfl

/-- What every round of a loop keeps holds at its end; `done` are the items that went before. -/
theorem exec_forM_ok {f : α → ExceptT ε (StateM σ) PUnit} (P : List α → σ → Prop) {as : List α} {s t : σ}
    (h : as.forM f s = (.ok ⟨⟩, t)) (start : P [] s)
    (step : ∀ done a rest s t, as = done ++ a :: rest → P done s → f a s = (.ok ⟨⟩, t) →
      P (done ++ [a]) t) : P as t := by
  suffices from_done : ∀ rest done s, as = done ++ rest → P done s →
      List.forM rest f s = (.ok ⟨⟩, t) → P as t from from_done as [] s rfl start h
  intro rest
  induction rest with
  | nil =>
    rintro done s has hd ⟨⟩
    simpa [has] using hd
  | cons a rest ih =>
    intro done s has hd hr
    obtain ⟨_, next, ha, hr⟩ := exec_bind_iff.mp hr
    exact ih (done ++ [a]) next (by simp [has]) (step done a rest s next has hd ha) hr

end FieldPlan
