import FieldPlan.Json.Basic

/-!
# JSON documents

A document is what a JSON text writes, before anybody asks for a value: keys may repeat, and a part
that follows the grammar may still have no value. Such a part does no harm as long as nothing looks
at it.

* `Document` : scalars, lists and tables of documents, and parts without a value;
* `Document.ofJson` : the document of a value;
* `Document.value?` : the value of a document, every repeated key taking its last value in its first
  place; `none` when some part has no value;
* `Document.depth` : the number of levels of nesting.
-/

namespace FieldPlan

/-- What a JSON text writes. The `unreadable` parts are numerals beyond the doubles, texts with half
a surrogate pair and containers nested too deeply; a key with half a pair is `none`. -/
inductive Document where
  | scalar (v : Json)
  | list (items : List Document)
  | table (members : List (Option String × Document))
  | unreadable
deriving Inhabited

namespace Document

/-! ## Values as documents -/

mutual

def ofJson : Json → Document
  | .arr items => .list (ofItems items)
  | .obj members => .table (ofMembers members)
  | v => .scalar v

def ofItems : List Json → List Document
  | [] => []
  | v :: vs => ofJson v :: ofItems vs

def ofMembers : List (String × Json) → List (Option String × Document)
  | [] => []
  | (k, v) :: rest => (some k, ofJson v) :: ofMembers rest

end

/-! ## The value of a document -/

mutual

def value? : Document → Option Json
  | .scalar v => some v
  | .list items => (valueItems? items).map .arr
  | .table members => (valueMembers? members []).map .obj
  | .unreadable => none

def valueItems? : List Document → Option (List Json)
  | [] => some []
  | d :: ds => do
    let v ← value? d
    let vs ← valueItems? ds
    pure (v :: vs)

/-- Inserts the values of members one after the other. -/
def valueMembers? : List (Option String × Document) → Dict Json → Option (Dict Json)
  | [], acc => some acc
  | (k, d) :: rest, acc => do
    let k ← k
    let v ← value? d
    valueMembers? rest (Dict.insert acc k v)

end

/-! ## Nesting -/

mutual

/-- The number of levels of nesting, one for a document that holds no others. -/
def depth : Document → Nat
  | .list items => depthItems items + 1
  | .table members => depthMembers members + 1
  | _ => 1

def depthItems : List Document → Nat
  | [] => 0
  | d :: ds => max (depth d) (depthItems ds)

def depthMembers : List (Option String × Document) → Nat
  | [] => 0
  | (_, d) :: rest => max (depth d) (depthMembers rest)

end

end Document

end FieldPlan
