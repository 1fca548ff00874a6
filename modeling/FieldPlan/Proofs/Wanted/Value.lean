import FieldPlan.Proofs.Expr.Value
import FieldPlan.Proofs.Wanted.Tree

/-!
# The value of what is wanted

A direct interpretation of requests: the value of a field is read from the value of its owner, and
nothing is compiled.

* `Resolve.value`, `Arrangement.value`, `Item.value` : the value of a field itself on its owner's
  value, as it comes, arranged, and both;
* `Wanted.value` : the value of all that is wanted, `none` where there is none.
-/

namespace FieldPlan

/-! ## The value of a field itself -/

def Json.readPath (path : List String) (v : Json) : Option Json :=
  path.foldlM (fun v name => v.readMember name) v

def ServiceArg.value (arguments : Dict Json) (parent : Json) : ServiceArg → Option Json
  | .member path => parent.readPath path
  | .argument name => some ((arguments.find? name).getD .null)
  | .constant v => some v

def Resolve.value (answers : Answers) (arguments : Dict Json) (parent : Json) :
    Resolve → Option Json
  | .member path => parent.readPath path
  | .service name method args => do
    (answers name method (← args.mapM (·.value arguments parent))).toOption
  | .constant v => some v
  | .expr _ => none

/-- A function of the items of a list; null is no list and stays null. -/
def Json.mapItems (f : List Json → List Json) : Json → Option Json
  | .null => some .null
  | .arr items => some (.arr (f items))
  | _ => none

section Values

variable (config : SchemaConfig) (answers : Answers)

def SchemaConfig.itemKey (entity : String) (key : String × Direction) : Option ItemKey :=
  (config.source? entity key.1).map fun source => ⟨key.2, fun item => source.value answers [] item⟩

def Json.sortByFields (entity : Option String) (order : List (String × Direction)) (v : Json) :
    Option Json :=
  if order.isEmpty then some v
  else do
    let entity ← entity
    let keys ← order.mapM (config.itemKey answers entity)
    v.sortBy keys

def Json.skipItems (v : Json) : Option Nat → Option Json
  | some (n + 1) => v.mapItems (·.drop (n + 1))
  | _ => some v

def Json.takeItems (v : Json) : Option Nat → Option Json
  | some n => v.mapItems (·.take n)
  | none => some v

def Arrangement.value (entity : Option String) (a : Arrangement) (v : Json) : Option Json := do
  let sorted ← v.sortByFields config answers entity a.order
  let rest ← sorted.skipItems a.skip
  rest.takeItems a.take

def Ty.elementEntity (t : Ty) : Option String := t.element?.bind Ty.entityName

/-- The value of a field on its owner's value, arranged. -/
def Item.value (item : Item) (parent : Json) : Option Json := do
  let v ← item.source.value answers item.arguments parent
  let a ← item.arrangement
  a.value config answers item.ty.elementEntity v

/-- Whether the value comes from a service, directly or, as `called` says, by way of its owner. -/
def Item.called (item : Item) (called : Bool) : Bool :=
  match item.source with
  | .service _ _ _ => true
  | .member _ => called
  | _ => false

/-! ## The value of all that is wanted -/

/-- The values of a function on the items of a list; null is no list and stays null. -/
def Json.forItems (f : Json → Option Json) : Json → Option Json
  | .null => some .null
  | .arr items => (items.mapM f).map .arr
  | _ => none

mutual

/-- The value of what is wanted, on the value of its owner. -/
def Wanted.value (called : Bool) (parent : Json) : Wanted → Option Json
  | .leaf item => item.value config answers parent
  | .object item children => do
    let v ← item.value config answers parent
    if v.isNull && (item.ty.nullable || item.called called) then pure .null
    else pure (.obj (← Wanted.values (item.called called) v children))
  | .list item children => do
    let v ← item.value config answers parent
    v.forItems fun v => (Wanted.values false v children).map .obj

/-- The named values of what is wanted. -/
def Wanted.values (called : Bool) (parent : Json) : List Wanted → Option (List (String × Json))
  | [] => some []
  | w :: ws => do
    let v ← Wanted.value called parent w
    let vs ← Wanted.values called parent ws
    pure ((w.name, v) :: vs)

end

end Values

end FieldPlan
