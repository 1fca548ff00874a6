import FieldPlan.Json.Document

/-!
# Decoding documents

A decoder answers `none` to a document that does not have its form. A table takes repeated keys one
after the other, a record refuses them.

* `Decode.text`, `Decode.flag`, `Decode.count`, `Decode.value` : plain values;
* `Decode.items`, `Decode.pair`, `Decode.table`, `Decode.nullable`, `Decode.choice` : compound
  values;
* `Decode.record` : the known members of a table, or of a list in the order of the known keys; what
  an open record holds under other keys is not looked at, so it need not be readable;
  `Decode.required`, `Decode.optional` read one of them.
-/

namespace FieldPlan.Decode

abbrev Decoder (α : Type) := Document → Option α

def text : Decoder String
  | .scalar v => v.toStr?
  | _ => none

def flag : Decoder Bool
  | .scalar (.bool b) => some b
  | _ => none

/-- A count below `2 ^ 64`. -/
def count : Decoder Nat
  | .scalar v =>
    match v.toNat? with
    | some n => if n < Nat.pow 2 64 then some n else none
    | none => none
  | _ => none

def value : Decoder Json := Document.value?

def items {α : Type} (item : Decoder α) : Decoder (List α)
  | .list ds => ds.mapM item
  | _ => none

def pair {α β : Type} (first : Decoder α) (second : Decoder β) : Decoder (α × β)
  | .list [c, d] => do
    let a ← first c
    let b ← second d
    pure (a, b)
  | _ => none

/-- The members of a table whose keys are all readable. -/
def named (members : List (Option String × Document)) : Option (List (String × Document)) :=
  members.mapM fun m => m.1.map fun k => (k, m.2)

def table {α : Type} (entry : Decoder α) : Decoder (Dict α)
  | .table members => do
    let members ← named members
    let entries ← members.mapM fun m => do
      let a ← entry m.2
      pure (m.1, a)
    pure (Dict.ofList entries)
  | _ => none

def nullable {α : Type} (inner : Decoder α) : Decoder (Option α)
  | .scalar .null => some none
  | d => (inner d).map some

/-- One of the given words, also as the only key of a table with null under it. -/
def choice {α : Type} (words : List (String × α)) : Decoder α
  | .scalar (.str w) => Dict.find? words w
  | .table [(some w, .scalar .null)] => Dict.find? words w
  | _ => none

/-! ## Records -/

/-- Whether no two members have the same key. -/
def distinct : List (String × Document) → Bool
  | [] => true
  | (k, _) :: rest => !(Dict.contains rest k) && distinct rest

/-- The members under known keys; `closed` refuses other keys. -/
def record (keys : List String) (closed : Bool) : Decoder (Dict Document)
  | .table members => do
    let members ← named members
    let known := members.filter fun m => keys.contains m.1
    if closed && known.length != members.length then none
    else if distinct known then pure known
    else none
  | .list ds => if ds.length ≤ keys.length then some (keys.zip ds) else none
  | _ => none

/-- A member that must be there. -/
def required {α : Type} (members : Dict Document) (key : String) (inner : Decoder α) : Option α :=
  (Dict.find? members key).bind inner

/-- A member that may be absent. -/
def optional {α : Type} (members : Dict Document) (key : String) (inner : Decoder α) (absent : α) :
    Option α :=
  match Dict.find? members key with
  | some d => inner d
  | none => some absent

end FieldPlan.Decode
