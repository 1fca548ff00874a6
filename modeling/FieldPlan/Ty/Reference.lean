import FieldPlan.Text.Blank
import FieldPlan.Ty.Basic

/-!
# Type references

A reference is a name or a bracketed reference, with `!` behind it when null is not admitted and
blanks anywhere between the parts.

* `Reference.read` : reads a reference into any type that has named and list forms; the error is the
  text of the innermost reference that is none;
* `Reference.isName` : the names of types other than scalars;
* `Ty.ofReference` : the type that a reference denotes, a name that is no scalar naming an entity.
-/

namespace FieldPlan

namespace Reference

open Text

/-- A list without its last element, when that is `c`. -/
def stripLast? (c : Char) (cs : List Char) : Option (List Char) :=
  if cs.getLast? = some c then some cs.dropLast else none

/-- The text between a pair of brackets. -/
def inBrackets? : List Char → Option (List Char)
  | '[' :: rest => stripLast? ']' rest
  | _ => none

/-- A trimmed reference without its mark, and whether it admits null. -/
def splitMark (cs : List Char) : List Char × Bool :=
  match stripLast? '!' cs with
  | some inner => (trim inner, false)
  | none => (cs, true)

theorem length_trimEnd_le (cs : List Char) : (trimEnd cs).length ≤ cs.length := by
  have := (List.dropWhile_sublist isBlank (l := cs.reverse)).length_le
  simpa [trimEnd] using this

theorem length_trim_le (cs : List Char) : (trim cs).length ≤ cs.length :=
  Nat.le_trans (length_trimEnd_le _) (List.dropWhile_sublist isBlank).length_le

theorem length_splitMark_le (cs : List Char) : (splitMark cs).1.length ≤ cs.length := by
  unfold splitMark stripLast?
  by_cases h : cs.getLast? = some '!'
  · simp only [h, if_true]
    exact Nat.le_trans (length_trim_le _) (by simp)
  · simp [h]

theorem length_inBrackets?_lt {cs inner : List Char} (h : inBrackets? cs = some inner) :
    inner.length < cs.length := by
  unfold inBrackets? at h
  split at h
  · unfold stripLast? at h
    split at h
    · cases h; rw [List.length_dropLast, List.length_cons]; omega
    · cases h
  · cases h

/-- Reads a reference: `named` gives the form of a name, when it is one, and `list` that of a list.
-/
def read {α : Type} (named : String → Bool → Option α) (list : α → Bool → α) (cs : List Char) :
    Except String α :=
  if trim cs = [] then .error ""
  else
    match _h : inBrackets? (splitMark (trim cs)).1 with
    | some inner => do
      let element ← read named list inner
      pure (list element (splitMark (trim cs)).2)
    | none =>
      match named (String.ofList (splitMark (trim cs)).1) (splitMark (trim cs)).2 with
      | some a => .ok a
      | none => .error (String.ofList cs)
termination_by cs.length
decreasing_by
  exact Nat.lt_of_lt_of_le (length_inBrackets?_lt ‹_›)
    (Nat.le_trans (length_splitMark_le _) (length_trim_le _))

def startsName (c : Char) : Bool := c.isAlpha || c == '_'

def continuesName (c : Char) : Bool := c.isAlphanum || c == '_'

def isName (name : String) : Bool :=
  match name.toList with
  | [] => false
  | c :: cs => startsName c && cs.all continuesName

end Reference

namespace Ty

def named? (name : String) (nullable : Bool) : Option Ty :=
  match Scalar.ofName? name with
  | some s => some (.scalar s nullable)
  | none => if Reference.isName name then some (.entity name nullable) else none

def ofReference (text : String) : Except String Ty :=
  Reference.read named? .list text.toList

end Ty

end FieldPlan
