import FieldPlan.Planning.Error
import FieldPlan.Selection.Inheritance

/-!
# Validation of arguments

* `Schema.argumentDefs` : the arguments that may be given to a field, its own and those of the field
  from which it inherits;
* `Schema.checkValue` : checks a value against a type; a single value stands for a list of one;
* `Schema.validate` : checks the arguments of a field and fills in defaults.
-/

namespace FieldPlan

def Scalar.admits : Scalar → Json → Bool
  | .boolean, .bool _ => true
  | .int, .int _ => true
  | .float, .int _ | .float, .double _ => true
  | .string, .str _ => true
  | .id, .str _ | .id, .int _ => true
  | .json, _ => true
  | _, _ => false

def Enumeration.admits (e : Enumeration) : Json → Bool
  | .str s => e.values.contains s
  | _ => false

namespace Schema

def argumentDefs (s : Schema) (f : FieldDef) : Dict ArgumentDef :=
  match f.useArgumentsFrom.bind s.fieldById? with
  | some source => Dict.union f.arguments source.arguments
  | none => f.arguments

/-! ## Values -/

/-- Checks a single value, wrapping it into a list for each list type. -/
def checkSingle (check : InputTy → Except PlanFault Json) : InputTy → Except PlanFault Json
  | .list t _ => do
    let v ← checkSingle check t
    pure (.arr [v])
  | t => check t

def getInput (s : Schema) (name : String) : Except PlanFault InputObject :=
  match s.inputs.find? name with
  | some input => pure input
  | none => throw (.unknownInputType name)

/-- Checks a value that is neither null nor holds other values against a type without lists. -/
def checkAtom (s : Schema) (argument : String) (v : Json) (t : InputTy) : Except PlanFault Json :=
  match t with
  | .scalar scalar _ =>
    if scalar.admits v then pure v else throw (.badArgument argument t v)
  | .enum name _ =>
    if (s.enums.find? name).any (·.admits v) then pure v else throw (.badArgument argument t v)
  | .object name _ => do
    let _ ← s.getInput name
    throw (.badArgument argument t v)
  | .list _ _ => throw (.badArgument argument t v)

/-- Checks that exactly one field of a one-of object is set. -/
def checkOneOf (argument : String) (input : InputObject) (members : List (String × Json)) :
    Except PlanFault Unit :=
  if input.oneOf && (members.filter fun m => !m.2.isNull).length != 1 then
    throw (.notExactlyOne argument input.name)
  else pure ()

def checkPresent (input : InputObject) (members : Dict Json) : Except PlanFault Unit :=
  match List.find? (fun f => !f.2.nullable && !members.contains f.1) input.fields with
  | some f => throw (.missingInputField input.name f.1 f.2)
  | none => pure ()

mutual

def checkValue (s : Schema) (argument : String) : Json → InputTy → Except PlanFault Json
  | .null, t => if t.nullable then pure .null else throw (.badArgument argument t .null)
  | .arr items, .list t _ => do
    let items ← checkItems s argument items t
    pure (.arr items)
  | .arr items, t => checkAtom s argument (.arr items) t
  | .obj members, t =>
    checkSingle (fun
      | .object name _ => do
        let input ← s.getInput name
        checkOneOf argument input members
        let members ← checkMembers s argument input members
        checkPresent input members
        pure (.obj members)
      | t => checkAtom s argument (.obj members) t) t
  | v, t => checkSingle (checkAtom s argument v) t

def checkItems (s : Schema) (argument : String) :
    List Json → InputTy → Except PlanFault (List Json)
  | [], _ => pure []
  | v :: vs, t => do
    let v ← checkValue s argument v t
    let vs ← checkItems s argument vs t
    pure (v :: vs)

def checkMembers (s : Schema) (argument : String) (input : InputObject) :
    List (String × Json) → Except PlanFault (Dict Json)
  | [] => pure []
  | (k, v) :: rest =>
    match input.fields.find? k with
    | none => throw (.undeclaredInputField k input.name)
    | some t => do
      let v ← checkValue s argument v t
      let rest ← checkMembers s argument input rest
      pure ((k, v) :: rest)

end

/-! ## Arguments -/

/-- Checks that every argument is declared. -/
def checkDeclared (f : FieldDef) (defs : Dict ArgumentDef) (values : Dict Json) :
    Except PlanFault Unit :=
  match List.find? (fun name => !defs.contains name) values.keys with
  | some name => throw (.undeclaredArgument name f.name)
  | none => pure ()

/-- The value of an argument: the given one unless null, else the default. -/
def provided (name : String) (default : Option Json) (values : Dict Json) : Option Json :=
  match values.find? name with
  | none | some .null => default
  | some v => some v

/-- Checks one declared argument and sets it. -/
def setArgument (s : Schema) (f : FieldDef) (values : Dict Json) (entry : String × ArgumentDef) :
    Except PlanFault (Dict Json) :=
  match provided entry.1 entry.2.default values with
  | some v => do
    let v ← s.checkValue entry.1 v entry.2.ty
    pure (values.insert entry.1 v)
  | none =>
    if entry.2.ty.nullable then pure values
    else throw (.missingArgument f.name entry.1 entry.2.ty)

/-- Checks the arguments of a field and fills in defaults. -/
def validate (s : Schema) (f : FieldDef) (values : Dict Json) : Except PlanFault (Dict Json) := do
  let defs := s.argumentDefs f
  checkDeclared f defs values
  defs.foldlM (s.setArgument f) values

end Schema

end FieldPlan
