import FieldPlan.Json.Basic

/-!
# Arguments of selections

* `ArgumentValue` : a value that may hold variables; a string that starts with `$` names one;
* `ArgumentValue.resolve` : the value under an assignment of variables, an absent one being null;
* `DirectiveUse` : a directive with its arguments.
-/

namespace FieldPlan

/-- A value that may hold variables. -/
inductive ArgumentValue where
  | literal (v : Json)
  | var (name : String)
  | list (items : List ArgumentValue)
  | object (fields : List (String × ArgumentValue))
deriving Inhabited

namespace ArgumentValue

/-- A string as a variable or a literal. -/
def ofText (s : String) : ArgumentValue :=
  match s.toList with
  | '$' :: c :: cs => .var (String.ofList (c :: cs))
  | _ => .literal (.str s)

mutual

def ofJson : Json → ArgumentValue
  | .str s => ofText s
  | .arr items => .list (ofItems items)
  | .obj members => .object (ofMembers members)
  | v => .literal v

def ofItems : List Json → List ArgumentValue
  | [] => []
  | v :: vs => ofJson v :: ofItems vs

def ofMembers : List (String × Json) → List (String × ArgumentValue)
  | [] => []
  | (k, v) :: rest => (k, ofJson v) :: ofMembers rest

end

mutual

def resolve (assignment : Dict Json) : ArgumentValue → Json
  | .literal v => v
  | .var name => (assignment.find? name).getD .null
  | .list items => .arr (resolveItems assignment items)
  | .object fields => .obj (resolveFields assignment fields)

def resolveItems (assignment : Dict Json) : List ArgumentValue → List Json
  | [] => []
  | a :: rest => resolve assignment a :: resolveItems assignment rest

def resolveFields (assignment : Dict Json) : List (String × ArgumentValue) → List (String × Json)
  | [] => []
  | (k, a) :: rest => (k, resolve assignment a) :: resolveFields assignment rest

end

end ArgumentValue

abbrev Arguments := Dict ArgumentValue

def Arguments.resolve (assignment : Dict Json) (arguments : Arguments) : Dict Json :=
  ArgumentValue.resolveFields assignment arguments

structure DirectiveUse where
  name : String
  arguments : Arguments
deriving Inhabited

end FieldPlan
