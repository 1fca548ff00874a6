import FieldPlan.Binary64

/-!
# The shortest decimal text of a double

* `Shortest.decimal` : the decimal with the fewest digits that reads back as the number, of those
  the nearest, a tie going to the even last digit;
* `Binary64.text` : its text, positional while the decimal exponent is in `-5 .. 15` and scientific
  with a signed exponent otherwise.
-/

namespace FieldPlan.Binary64

/-! ## Digits -/

namespace Shortest

/-- The reals that round to a magnitude, in quarter units, and whether the ends do too. -/
structure Interval where
  lo : Nat
  hi : Nat
  closed : Bool

/-- The interval of a magnitude: below a power of two the neighbours are twice as dense. -/
def interval (u : Nat) : Interval :=
  let k := spareBits u
  let ulp := Nat.pow 2 k
  let m := u / ulp
  let below := if m = Nat.pow 2 52 ∧ 0 < k then ulp else 2 * ulp
  ⟨4 * u - below, 4 * u + 2 * ulp, m % 2 = 0⟩

/-- Whether `num / den` quarter units lie in the interval. -/
def Interval.covers (i : Interval) (num den : Nat) : Bool :=
  if i.closed then i.lo * den ≤ num ∧ num ≤ i.hi * den
  else i.lo * den < num ∧ num < i.hi * den

/-- A step `10 ^ g` of the decimal grid in units, as a quotient. -/
def gridStep (g : Int) : Nat × Nat :=
  if g < 0 then (one, Nat.pow 10 g.natAbs) else (one * Nat.pow 10 g.toNat, 1)

/-- The grid point nearest to `u` units that reads back, when one of the two neighbours does. -/
def nearestOnGrid (u : Nat) (g : Int) : Option Nat :=
  let (num, den) := gridStep g
  let low := u * den / num
  let rest := u * den % num
  let reads (d : Nat) : Bool := (interval u).covers (4 * d * num) den
  let up := num < 2 * rest || (num == 2 * rest && low % 2 == 1)
  match reads low, reads (low + 1) with
  | true, true => some (if up then low + 1 else low)
  | true, false => some low
  | false, true => some (low + 1)
  | false, false => none

/-- The exponent of the leading decimal digit of `u > 0` units. -/
def leadingExponent (u : Nat) : Int :=
  ((Nat.toDigits 10 (u * Nat.pow 10 324 / one)).length : Int) - 325

/-- The decimal exponents that 1, 2, …, 17 digits end on. -/
def grids (u : Nat) : List Int :=
  (List.range 17).map fun (n : Nat) => leadingExponent u - n

/-- The digits `d` and the exponent `g` of the shortest decimal `d · 10 ^ g`. -/
def decimal (u : Nat) : Nat × Int :=
  (((grids u).findSome? fun g => (nearestOnGrid u g).map fun d => (d, g))).getD (u, 0)

end Shortest

/-! ## Layout -/

/-- Drops the zeros at the end of a digit string and counts them. -/
def stripZeros (digits : List Char) : List Char × Nat :=
  let zeros := (digits.reverse.takeWhile (· == '0')).length
  (digits.take (digits.length - zeros), zeros)

/-- Lays out `digits · 10 ^ exponent` for non-empty digits without zeros at the end. -/
def layout (digits : List Char) (exponent : Int) : String :=
  let zeros (n : Nat) : List Char := List.replicate n '0'
  let point := (digits.length : Int) + exponent
  if 0 ≤ exponent ∧ point ≤ 16 then
    String.ofList (digits ++ zeros exponent.toNat) ++ ".0"
  else if 0 < point ∧ point ≤ 16 then
    String.ofList (digits.take point.toNat) ++ "." ++ String.ofList (digits.drop point.toNat)
  else if -5 < point ∧ point ≤ 0 then
    "0." ++ String.ofList (zeros point.natAbs ++ digits)
  else
    let fraction := digits.drop 1
    let mantissa := String.ofList (digits.take 1) ++
      (if fraction.isEmpty then "" else "." ++ String.ofList fraction)
    let e := point - 1
    mantissa ++ (if e < 0 then "e-" else "e+") ++ toString e.natAbs

def text (x : Binary64) : String :=
  let sign := if x.neg then "-" else ""
  if x.units = 0 then sign ++ "0.0"
  else
    let (d, g) := Shortest.decimal x.units
    let (digits, dropped) := stripZeros (Nat.toDigits 10 d)
    sign ++ layout digits (g + dropped)

end FieldPlan.Binary64
