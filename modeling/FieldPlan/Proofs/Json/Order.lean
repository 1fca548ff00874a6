import FieldPlan.Plan.Eval
import FieldPlan.Proofs.Binary64

/-!
# The order of sort keys is a total preorder

* `Json.sortOrder_eq` : the order compares ranks, then flags, magnitudes and texts, of which two
  values of one rank have at most one of their own;
* `Json.transCmp_sortOrder`, `Direction.transCmp_order` : it is a total preorder on all values, in
  both directions;
* `Direction.le_of_order_int` : integers are put in order unless they round to one double.
-/

namespace FieldPlan

namespace Json

def flag : Json → Bool
  | .bool b => b
  | _ => false

/-- A number in units of the least positive double, zero for other values. -/
def magnitude (v : Json) : Int := v.toBinary64.scaled

def text : Json → String
  | .str s => s
  | _ => ""

/-- The order of sort keys is an order of measures, one after the other. -/
theorem sortOrder_eq : sortOrder = compareLex (compareOn rank)
    (compareLex (compareOn flag) (compareLex (compareOn magnitude) (compareOn text))) := by
  funext a b
  cases a <;> cases b <;>
    simp [sortOrder, compareLex, compareOn, rank, flag, magnitude, text, toBinary64, Binary64.cmp] <;>
    rfl

instance transCmp_sortOrder : Std.TransCmp sortOrder := by
  rw [sortOrder_eq]
  infer_instance

/-! ## Integers -/

theorem sortOrder_int (m n : Int) :
    sortOrder (.int m) (.int n) = (Binary64.ofInt m).cmp (Binary64.ofInt n) := rfl

/-- Integers that are not out of order by their doubles are in order, or have the same double. -/
theorem le_of_sortOrder_int {m n : Int} (h : sortOrder (.int m) (.int n) ≠ .gt) :
    m ≤ n ∨ (Binary64.ofInt m).scaled = (Binary64.ofInt n).scaled := by
  rw [sortOrder_int, Binary64.cmp, Int.compare_ne_gt] at h
  rcases Int.le_total m n with hle | hle
  · exact .inl hle
  · exact .inr (Int.le_antisymm h (Binary64.ofInt_mono hle))

/-- The second case arises: the first integer past `2 ^ 53` shares its double. -/
example : sortOrder (.int (2 ^ 53 + 1)) (.int (2 ^ 53)) = .eq := by decide +kernel

end Json

/-- An integer may stand before another one in a direction. -/
def Direction.Le (d : Direction) (m n : Int) : Prop :=
  match d with
  | .ascending => m ≤ n
  | .descending => n ≤ m

instance Direction.transCmp_order (d : Direction) : Std.TransCmp d.order := by
  cases d with
  | ascending => exact inferInstanceAs (Std.TransCmp Json.sortOrder)
  | descending => exact (Std.TransCmp.opposite : Std.TransCmp fun a b => Json.sortOrder b a)

theorem Direction.le_refl (d : Direction) (n : Int) : d.Le n n := by
  cases d <;> exact Int.le_refl n

/-- Integers that are not out of order are in order, or have the same double. -/
theorem Direction.le_of_order_int {d : Direction} {m n : Int}
    (h : d.order (.int m) (.int n) ≠ .gt) :
    d.Le m n ∨ (Binary64.ofInt m).scaled = (Binary64.ofInt n).scaled := by
  cases d with
  | ascending => exact Json.le_of_sortOrder_int h
  | descending => exact (Json.le_of_sortOrder_int h).imp_right Eq.symm

end FieldPlan
