import FieldPlan.Proofs.Expr.Parts

/-!
# Services in expressions

* `Expr.Served` : the handle of a service occurs; `Expr.services_eq_nil` : none does;
* `Expr.mem_services` : the services whose handles occur.
-/

namespace FieldPlan

namespace Expr

def Served (e : Expr) : Prop := ∃ name, .service name ∈ e.subterms

theorem served_iff {e : Expr} :
    e.Served ↔ (∃ name, e = .service name) ∨ ∃ c ∈ e.children, c.Served := by
  unfold Served
  constructor
  · rintro ⟨name, hn⟩
    rcases mem_subterms.mp hn with h | ⟨c, hc, hn⟩
    · exact .inl ⟨name, h.symm⟩
    · exact .inr ⟨c, hc, name, hn⟩
  · rintro (⟨name, rfl⟩ | ⟨c, hc, name, hn⟩)
    · exact ⟨name, self_mem_subterms _⟩
    · exact ⟨name, mem_subterms_of_child hc hn⟩

theorem mem_foldl_addName (names : List String) (acc : List String) (name : String) :
    name ∈ names.foldl addName acc ↔ name ∈ acc ∨ name ∈ names := by
  induction names generalizing acc with
  | nil => simp
  | cons n names ih =>
    rw [List.foldl_cons, ih]
    unfold addName
    split
    · rename_i h
      have h : n ∈ acc := by simpa using h
      simp only [List.mem_cons]
      constructor
      · exact fun hm => hm.imp_right .inr
      · rintro (hm | rfl | hm)
        · exact .inl hm
        · exact .inl h
        · exact .inr hm
    · simp [or_assoc]

theorem mem_services {e : Expr} {name : ServiceName} :
    name ∈ e.services ↔ .service name ∈ e.subterms := by
  unfold services
  rw [mem_foldl_addName, List.mem_filterMap]
  constructor
  · rintro (h | ⟨x, hx, hn⟩)
    · cases h
    · cases x <;> cases hn
      exact hx
  · exact fun h => .inr ⟨_, h, rfl⟩

theorem mem_services_iff {e : Expr} {name : ServiceName} :
    name ∈ e.services ↔ .service name = e ∨ ∃ c ∈ e.children, name ∈ c.services := by
  simp only [mem_services]
  exact mem_subterms

theorem served_congr {e e' : Expr} (h : ∀ name, name ∈ e.services ↔ name ∈ e'.services) :
    e.Served ↔ e'.Served := by
  simp only [mem_services] at h
  exact exists_congr h

theorem services_isEmpty {e : Expr} : e.services.isEmpty = true ↔ ¬e.Served := by
  rw [List.isEmpty_iff, List.eq_nil_iff_forall_not_mem]
  simp only [mem_services, Served, not_exists]

theorem services_eq_nil {e : Expr} : e.services = [] ↔ ¬e.Served := by
  rw [← List.isEmpty_iff, services_isEmpty]

end Expr

end FieldPlan
