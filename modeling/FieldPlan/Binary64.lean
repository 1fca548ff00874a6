/-!
# Finite binary64 numbers, exactly

A finite double is a sign and a whole number of units of `2 ^ -1074`, the least positive double, so
that comparison is comparison of integers and every operation is its exact result rounded once.

* `Binary64` : the numbers; `Binary64.scaled` : the value times `2 ^ 1074`, on which `compare` and
  `==` are decided (so `0.0 == -0.0`);
* `roundUnits` : the nearest magnitude with 53 significant bits, a tie going to the even one;
* `ofInt`, `mul?`, `div` : rounded conversion and arithmetic, `none` beyond the largest double.
-/

namespace FieldPlan

/-- A finite binary64 number: a sign and a magnitude in units of `2 ^ -1074`. -/
structure Binary64 where
  neg : Bool
  units : Nat
deriving DecidableEq, Repr, Inhabited

namespace Binary64

/-- The value times `2 ^ 1074`. -/
def scaled (x : Binary64) : Int := if x.neg then -(x.units : Int) else x.units

/-- Equality of values: the two zeros are equal. -/
instance : BEq Binary64 := ⟨fun x y => x.scaled == y.scaled⟩

def cmp (x y : Binary64) : Ordering := compare x.scaled y.scaled

theorem beq_iff (x y : Binary64) : (x == y) = true ↔ x.scaled = y.scaled := by
  simp [BEq.beq]

/-! ## Rounding -/

/-- The whole number nearest to `num / den`, a tie going to the even one. -/
def roundQuotient (num den : Nat) : Nat :=
  let q := num / den
  let r := num % den
  if 2 * r < den then q
  else if den < 2 * r then q + 1
  else if q % 2 = 0 then q else q + 1

/-- The number of low bits that a magnitude of `q` units leaves to rounding. -/
def spareBits (q : Nat) : Nat := q.log2 - 52

/-- The magnitude with 53 significant bits that is nearest to `num / den` units. -/
def roundUnits (num den : Nat) : Nat :=
  let k := spareBits (num / den)
  roundQuotient num (den * Nat.pow 2 k) * Nat.pow 2 k

/-- One, in units. -/
def one : Nat := Nat.pow 2 1074

/-- The first magnitude past the largest finite double. -/
def overflow : Nat := Nat.pow 2 2098

/-- The double nearest to an integer. -/
def ofInt (n : Int) : Binary64 := ⟨n < 0, roundUnits (n.natAbs * one) 1⟩

/-- The rounded product, unless it is too large. -/
def mul? (x y : Binary64) : Option Binary64 :=
  let u := roundUnits (x.units * y.units) one
  if u < overflow then some ⟨x.neg != y.neg, u⟩ else none

/-- The rounded quotient by a number of magnitude at least one. -/
def div (x y : Binary64) : Binary64 :=
  ⟨x.neg != y.neg, roundUnits (x.units * one) y.units⟩

def negate (x : Binary64) : Binary64 := ⟨!x.neg, x.units⟩

/-- The double nearest to a power of ten. -/
def pow10 (k : Nat) : Binary64 := ofInt (Nat.pow 10 k)

/-- The largest power of ten that is used in one scaling step. -/
def maxPow10 : Nat := 308

/-- Divides by `10 ^ n`, at most `10 ^ 308` at a time, rounding after each step. -/
def scaleDown (x : Binary64) (n : Nat) : Binary64 :=
  if n ≤ maxPow10 then x.div (pow10 n)
  else if x.units = 0 then x
  else scaleDown (x.div (pow10 maxPow10)) (n - maxPow10)
termination_by n
decreasing_by simp only [maxPow10] at *; omega

/-- The number written `m · 10 ^ e`: `m` is rounded first and then scaled. -/
def ofDecimal? (m : Nat) (e : Int) : Option Binary64 :=
  let x := ofInt m
  if e < 0 then some (x.scaleDown e.natAbs)
  else if e ≤ maxPow10 then x.mul? (pow10 e.toNat)
  else if x.units = 0 then some x
  else none

end Binary64

end FieldPlan
