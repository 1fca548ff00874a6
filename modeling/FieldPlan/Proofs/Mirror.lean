import FieldPlan.Proofs.Success

/-!
# Computations that mirror others

Two computations with a state that may fail, one of which does on the images of states what the
other one does.

* `Mirrors` : the relation; it holds at the states of an invariant, which the steps keep;
* `Mirrors.bind`, `Mirrors.lift`, `Mirrors.foldlM`, `Mirrors.mapM` : steps that mirror each other make
  runs that do.
-/

namespace FieldPlan

variable {ε σ α β γ δ ι κ : Type} {g : σ → σ} {I : σ → Prop}

/-- The computation `y` does on the image of a state of `I` what `x` does on the state: it fails with
the same error or gives the images of the result and of the next state, which is again one of `I`. -/
def Mirrors (g : σ → σ) (I : σ → Prop) (r : α → β) (x : StateT σ (Except ε) α)
    (y : StateT σ (Except ε) β) : Prop :=
  ∀ s, I s → y (g s) = (x s).map (Prod.map r g) ∧ ∀ a s', x s = .ok (a, s') → I s'

namespace Mirrors

variable {r : α → β} {t : γ → δ} {x : StateT σ (Except ε) α} {y : StateT σ (Except ε) β}

theorem pure {a : α} {b : β} (h : b = r a) :
    Mirrors g I r (Pure.pure a : StateT σ (Except ε) α) (Pure.pure b) := by
  intro s hs
  refine ⟨h ▸ rfl, fun a' s' ha => ?_⟩
  obtain ⟨-, rfl⟩ := run_pure_ok.mp ha
  exact hs

theorem throw (e : ε) :
    Mirrors g I r (throw e : StateT σ (Except ε) α) (throw e) := fun _ _ => ⟨rfl, nofun⟩

theorem bind {k : α → StateT σ (Except ε) γ} {l : β → StateT σ (Except ε) δ} (hx : Mirrors g I r x y)
    (hk : ∀ a, Mirrors g I t (k a) (l (r a))) : Mirrors g I t (x >>= k) (y >>= l) := by
  intro s hs
  obtain ⟨hy, keeps⟩ := hx s hs
  show (y (g s) >>= fun p => l p.1 p.2) = Except.map _ (x s >>= fun p => k p.1 p.2) ∧ _
  rw [hy]
  cases hr : x s with
  | error e =>
    refine ⟨rfl, fun c s' hc => ?_⟩
    obtain ⟨a, s₁, ha, -⟩ := run_bind_ok.mp hc
    rw [hr] at ha
    cases ha
  | ok p =>
    obtain ⟨a, s₁⟩ := p
    obtain ⟨hl, keeps'⟩ := hk a s₁ (keeps a s₁ hr)
    refine ⟨hl, fun c s' hc => ?_⟩
    obtain ⟨a', s₂, ha, hc⟩ := run_bind_ok.mp hc
    rw [hr] at ha
    cases ha
    exact keeps' c s' hc

theorem lift {u : Except ε α} {v : Except ε β} (h : v = u.map r) :
    Mirrors g I r (StateT.lift u : StateT σ (Except ε) α) (StateT.lift v) := by
  intro s hs
  subst h
  refine ⟨?_, fun a s' ha => ?_⟩
  · cases u <;> rfl
  · obtain ⟨-, rfl⟩ : _ ∧ s' = s := run_lift_ok.mp ha
    exact hs

theorem foldlM {f : α → ι → StateT σ (Except ε) α} {f' : β → κ → StateT σ (Except ε) β} {m : ι → κ}
    {is : List ι} (h : ∀ i ∈ is, ∀ a, Mirrors g I r (f a i) (f' (r a) (m i))) (a : α) :
    Mirrors g I r (is.foldlM f a) ((is.map m).foldlM f' (r a)) := by
  induction is generalizing a with
  | nil => exact .pure rfl
  | cons i is ih =>
    obtain ⟨first, rest⟩ := List.forall_mem_cons.mp h
    rw [List.map_cons, List.foldlM_cons, List.foldlM_cons]
    exact (first a).bind (ih rest)

theorem mapM {f : ι → StateT σ (Except ε) α} {f' : κ → StateT σ (Except ε) β} {m : ι → κ}
    {is : List ι} (h : ∀ i ∈ is, Mirrors g I r (f i) (f' (m i))) :
    Mirrors g I (List.map r) (is.mapM f) ((is.map m).mapM f') := by
  induction is with
  | nil => exact .pure rfl
  | cons i is ih =>
    obtain ⟨first, rest⟩ := List.forall_mem_cons.mp h
    rw [List.map_cons, List.mapM_cons, List.mapM_cons]
    exact first.bind fun a => (ih rest).bind fun as => .pure rfl

end Mirrors

end FieldPlan
