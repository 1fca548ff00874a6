import FieldPlan.Json.Document

/-!
# Reading JSON text

* `Json.Reader.number` : numerals; the significand keeps the digits that fit into 64 bits and the
  others only move the exponent, and a numeral beyond the largest double has no value;
* `Json.Reader.text` : quoted texts; one that escapes half a surrogate pair has no value;
* `Document.readWithin` : the document that a text writes, `none` when the text breaks the grammar;
  containers nested deeper than a bound are unreadable;
* `Json.readWithin` : the value of a text all of which is readable;
* `Document.read`, `Json.read` : the same under the usual bound, `Json.Reader.maxDepth`.
-/

namespace FieldPlan

namespace Json

namespace Reader

/-- Blank characters between tokens. -/
def isBlank (c : Char) : Bool := c == ' ' || c == '\n' || c == '\t' || c == '\r'

def skipBlank (cs : List Char) : List Char := cs.dropWhile isBlank

/-! ## Numerals -/

def digit (c : Char) : Nat := c.toNat - '0'.toNat

/-- The digits at the front and what follows. -/
def digits (cs : List Char) : List Nat × List Char :=
  ((cs.takeWhile Char.isDigit).map digit, cs.dropWhile Char.isDigit)

/-- A significand below `2 ^ 64`, with the digits taken into it and those dropped once it was full.
-/
structure Significand where
  value : Nat
  taken : Nat
  dropped : Nat

/-- Takes a digit as long as every digit before it was taken and it fits. -/
def Significand.push (s : Significand) (d : Nat) : Significand :=
  if s.dropped = 0 ∧ s.value * 10 + d < Nat.pow 2 64 then
    { s with value := s.value * 10 + d, taken := s.taken + 1 }
  else { s with dropped := s.dropped + 1 }

/-- Continues a significand by further digits. -/
def pushAll (m : Nat) (ds : List Nat) : Significand := ds.foldl Significand.push ⟨m, 0, 0⟩

/-- The whole number that digits write. -/
def ofDigits (ds : List Nat) : Nat := ds.foldl (fun n d => n * 10 + d) 0

/-- A double with a sign. -/
def double? (negative : Bool) (m : Nat) (e : Int) : Option Json :=
  (Binary64.ofDecimal? m e).map fun x => .double (if negative then x.negate else x)

/-- A sign at the front, `true` for minus, and what follows. -/
def sign (cs : List Char) : Bool × List Char :=
  match cs with
  | '-' :: rest => (true, rest)
  | '+' :: rest => (false, rest)
  | _ => (false, cs)

/-- The exponent part if the text goes on with one; the whole is `none` when its digits are missing.
-/
def exponent? (cs : List Char) : Option (Option Int × List Char) :=
  match cs with
  | c :: rest =>
    if c = 'e' ∨ c = 'E' then
      let (negative, rest) := sign rest
      match digits rest with
      | ([], _) => none
      | (ds, rest) => some (some (if negative then -(ofDigits ds : Int) else ofDigits ds), rest)
    else some (none, cs)
  | [] => some (none, cs)

/-- A whole number without fraction and exponent: an integer unless it is `-0` or out of range. -/
def whole (negative : Bool) (m : Nat) : Option Json :=
  if !negative then some (.int m)
  else if m = 0 ∨ Nat.pow 2 63 < m then double? true m 0
  else some (.int (-(m : Int)))

/-- A numeral after its sign. -/
def unsigned (negative : Bool) (cs : List Char) : Option (Option Json × List Char) :=
  match digits cs with
  | ([], _) => none
  | (0 :: _ :: _, _) => none
  | (ds, rest) =>
    let s := pushAll 0 ds
    match rest with
    | '.' :: rest =>
      match digits rest with
      | ([], _) => none
      | (fs, rest) => do
        let f := pushAll s.value fs
        let (e, rest) ← exponent? rest
        pure (double? negative f.value (s.dropped - f.taken + e.getD 0), rest)
    | _ => do
      let (e, rest) ← exponent? rest
      let v :=
        if e.isNone ∧ s.dropped = 0 then whole negative s.value
        else double? negative s.value (s.dropped + e.getD 0)
      pure (v, rest)

/-- A numeral, `none` inside when it is beyond the doubles. -/
def number (cs : List Char) : Option (Option Json × List Char) :=
  match cs with
  | '-' :: rest => unsigned true rest
  | _ => unsigned false cs

/-! ## Quoted texts -/

def hexDigit? (c : Char) : Option Nat :=
  if '0' ≤ c ∧ c ≤ '9' then some (c.toNat - '0'.toNat)
  else if 'a' ≤ c ∧ c ≤ 'f' then some (c.toNat - 'a'.toNat + 10)
  else if 'A' ≤ c ∧ c ≤ 'F' then some (c.toNat - 'A'.toNat + 10)
  else none

/-- The number that four hexadecimal digits write. -/
def hex4? (a b c d : Char) : Option Nat := do
  let a ← hexDigit? a
  let b ← hexDigit? b
  let c ← hexDigit? c
  let d ← hexDigit? d
  pure (((a * 16 + b) * 16 + c) * 16 + d)

/-- The character of a one-letter escape. -/
def escaped? (c : Char) : Option Char :=
  match c with
  | '"' => some '"'
  | '\\' => some '\\'
  | '/' => some '/'
  | 'b' => some (Char.ofNat 8)
  | 'f' => some (Char.ofNat 12)
  | 'n' => some '\n'
  | 'r' => some '\r'
  | 't' => some '\t'
  | _ => none

/-- The units up to the closing quote, put before `acc` in reverse, and what follows it. A unit is a
code point or half a surrogate pair. -/
def units (acc : List Nat) : List Char → Option (List Nat × List Char)
  | '"' :: rest => some (acc.reverse, rest)
  | '\\' :: 'u' :: a :: b :: c :: d :: rest =>
    match hex4? a b c d with
    | some n => units (n :: acc) rest
    | none => none
  | '\\' :: c :: rest =>
    match escaped? c with
    | some c => units (c.toNat :: acc) rest
    | none => none
  | c :: rest => if c.toNat < 32 ∨ c = '\\' then none else units (c.toNat :: acc) rest
  | [] => none

/-- Whether a unit is half a surrogate pair. -/
def isSurrogate (n : Nat) : Bool := 0xD800 ≤ n && n < 0xE000

/-- The character of a pair of surrogates. -/
def surrogates? (hi lo : Nat) : Option Char :=
  if 0xD800 ≤ hi ∧ hi < 0xDC00 ∧ 0xDC00 ≤ lo ∧ lo < 0xE000 then
    some (Char.ofNat (0x10000 + (hi - 0xD800) * 0x400 + (lo - 0xDC00)))
  else none

/-- The characters of units in which all surrogates are paired, put before `acc` in reverse. -/
def ofUnits? (acc : List Char) : List Nat → Option String
  | [] => some (String.ofList acc.reverse)
  | n :: rest =>
    if isSurrogate n then
      match rest with
      | lo :: rest =>
        match surrogates? n lo with
        | some c => ofUnits? (c :: acc) rest
        | none => none
      | [] => none
    else ofUnits? (Char.ofNat n :: acc) rest

/-- A quoted text after the opening quote, `none` inside when it holds half a surrogate pair. -/
def text (cs : List Char) : Option (Option String × List Char) :=
  (units [] cs).map fun (us, rest) => (ofUnits? [] us, rest)

/-! ## Values -/

/-- What follows a given word at the front. -/
def word? (w cs : List Char) : Option (List Char) :=
  if w.isPrefixOf cs then some (cs.drop w.length) else none

/-- The key of a member and what follows the colon behind it. -/
def key? (cs : List Char) : Option (Option String × List Char) :=
  match skipBlank cs with
  | '"' :: rest =>
    match text rest with
    | some (k, rest) =>
      match skipBlank rest with
      | ':' :: rest => some (k, rest)
      | _ => none
    | none => none
  | _ => none

def scalar (v : Option Json) : Document := v.elim .unreadable .scalar

/-- A container, which is readable inside at most `depth` containers. -/
def container (depth : Nat) (d : Document) : Document := if depth = 0 then .unreadable else d

mutual

/-- A document inside at most `depth` further readable containers; the fuel bounds the number of
steps. -/
def document (depth : Nat) (cs : List Char) : Nat → Option (Document × List Char)
  | 0 => none
  | fuel + 1 =>
    match skipBlank cs with
    | '"' :: rest => (text rest).map fun (s, rest) => (scalar (s.map .str), rest)
    | '[' :: rest =>
      match skipBlank rest with
      | ']' :: rest => some (container depth (.list []), rest)
      | _ => (items (depth - 1) rest fuel).map fun (ds, rest) => (container depth (.list ds), rest)
    | '\x7b' :: rest =>
      match skipBlank rest with
      | '\x7d' :: rest => some (container depth (.table []), rest)
      | _ =>
        (members (depth - 1) rest fuel).map fun (ms, rest) => (container depth (.table ms), rest)
    | 't' :: rest => (word? ['r', 'u', 'e'] rest).map fun rest => (.scalar (.bool true), rest)
    | 'f' :: rest => (word? ['a', 'l', 's', 'e'] rest).map fun rest => (.scalar (.bool false), rest)
    | 'n' :: rest => (word? ['u', 'l', 'l'] rest).map fun rest => (.scalar .null, rest)
    | rest => (number rest).map fun (v, rest) => (scalar v, rest)

/-- The items up to the closing bracket. -/
def items (depth : Nat) (cs : List Char) : Nat → Option (List Document × List Char)
  | 0 => none
  | fuel + 1 =>
    match document depth cs fuel with
    | none => none
    | some (d, rest) =>
      match skipBlank rest with
      | ',' :: rest => (items depth rest fuel).map fun (ds, rest) => (d :: ds, rest)
      | ']' :: rest => some ([d], rest)
      | _ => none

/-- The members up to the closing brace. -/
def members (depth : Nat) (cs : List Char) :
    Nat → Option (List (Option String × Document) × List Char)
  | 0 => none
  | fuel + 1 =>
    match key? cs with
    | none => none
    | some (k, rest) =>
      match document depth rest fuel with
      | none => none
      | some (d, rest) =>
        match skipBlank rest with
        | ',' :: rest => (members depth rest fuel).map fun (ms, rest) => ((k, d) :: ms, rest)
        | '\x7d' :: rest => some ([(k, d)], rest)
        | _ => none

end

/-- The deepest nesting of containers that is readable unless a bound is given. -/
def maxDepth : Nat := 127

end Reader

end Json

namespace Document

open Json

/-- The document that a text writes, where containers nest at most `depth` deep. -/
def readWithin (depth : Nat) (text : String) : Option Document :=
  let cs := text.toList
  match Reader.document depth cs (2 * cs.length + 2) with
  | some (d, rest) => if (Reader.skipBlank rest).isEmpty then some d else none
  | none => none

def read (text : String) : Option Document := readWithin Reader.maxDepth text

end Document

namespace Json

/-- The value of a text that nests at most `depth` containers. -/
def readWithin (depth : Nat) (text : String) : Option Json :=
  (Document.readWithin depth text).bind Document.value?

def read (text : String) : Option Json := readWithin Reader.maxDepth text

end Json

end FieldPlan
