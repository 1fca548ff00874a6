import Mathlib.Logic.Function.Basic

/-!
# New numbers

Parameters and nodes are numbered in the order in which they are made. What is made later in one run
than in another has other numbers.

* `Renumbering` : new numbers that leave alone the ones below a bound;
* `Renumbering.shift` : the numbers from the bound on move up.
-/

namespace FieldPlan

/-- New numbers. The ones below `low` stay, and numbers above that follow each other still do. -/
structure Renumbering (low : Nat) where
  /-- The new number of a number. -/
  number : Nat → Nat
  injective : Function.Injective number
  below : ∀ i, i < low → number i = i
  next : ∀ i, low ≤ i → number (i + 1) = number i + 1

namespace Renumbering

variable {low : Nat}

instance : CoeFun (Renumbering low) fun _ => Nat → Nat := ⟨number⟩

/-- The numbers from the bound on move up. -/
def shift (low steps : Nat) : Renumbering low where
  number i := if i < low then i else i + steps
  injective i j h := by
    dsimp only at h
    split at h <;> split at h <;> omega
  below i h := if_pos h
  next i h := by
    rw [if_neg (by omega), if_neg (by omega)]
    omega

theorem shift_low (low steps : Nat) : shift low steps low = low + steps := if_neg (Nat.lt_irrefl low)

theorem eq_iff (ρ : Renumbering low) {i j : Nat} : ρ i = ρ j ↔ i = j := ρ.injective.eq_iff

end Renumbering

end FieldPlan
