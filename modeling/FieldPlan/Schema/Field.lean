import FieldPlan.Expr.Basic
import FieldPlan.InputTy

/-!
# Fields

* `ArgumentDef` : a declared argument;
* `FieldDef` : a field of an entity with its resolve expression over a parameter that stands for the
  owner's value;
* `Expr.memberChains` : the maximal member chains that start at a parameter;
* `extractFields` : the chains of a service-backed field under synthesized names.
-/

namespace FieldPlan

structure ArgumentDef where
  name : String
  ty : InputTy
  default : Option Json
  description : Option String
deriving Inhabited

/-- Whether a value must be given: there is no default and null is not admitted. -/
def ArgumentDef.isRequired (a : ArgumentDef) : Bool := !a.ty.nullable && a.default.isNone

abbrev FieldId := Nat

/-- A part of a service-backed field's expression that needs no service, and the name under which
the shape pass materializes it. -/
structure Extracted where
  name : String
  expr : Expr
deriving Inhabited

structure FieldDef where
  id : FieldId
  name : String
  owner : String
  ty : Ty
  /-- Stands for the owner's value in `resolve`. -/
  param : Param
  resolve : Expr
  services : List ServiceName
  extracted : List Extracted
  arguments : Dict ArgumentDef
  /-- Stands for the record of arguments in `resolve`, when it occurs there. -/
  argumentParam : Option Param
  /-- The field whose arguments are inherited. -/
  useArgumentsFrom : Option FieldId
  roles : List String
  description : Option String
deriving Inhabited

def FieldDef.hasServices (f : FieldDef) : Bool := !f.services.isEmpty

def FieldDef.entity (f : FieldDef) : Option String := f.ty.entityName

/-! ## Member chains -/

/-- The member path that leads from a parameter to an expression. -/
def Expr.pathFrom? (p : Param) : Expr → Option (List String)
  | .param q => if q.id = p.id then some [] else none
  | .member target name _ => (target.pathFrom? p).map (· ++ [name])
  | _ => none

/-- A member chain that starts at a parameter, and its path. -/
def Expr.chainFrom? (p : Param) (e : Expr) : Option (List String × Expr) :=
  match e.pathFrom? p with
  | some (name :: path) => some (name :: path, e)
  | _ => none

/-- The maximal member chains that start at a parameter, with their paths. -/
def Expr.memberChains (e : Expr) (p : Param) : List (List String × Expr) :=
  e.topmost (chainFrom? p)

def extractedName (field : String) (path : List String) : String :=
  "__" ++ field ++ "_" ++ "_".intercalate path

/-- Adds an extracted part unless its name is taken. -/
def addExtracted (parts : List Extracted) (part : Extracted) : List Extracted :=
  if parts.any (·.name == part.name) then parts else parts ++ [part]

/-- The member chains of an expression under the names of a field. -/
def extractFields (field : String) (resolve : Expr) (p : Param) : List Extracted :=
  ((resolve.memberChains p).map fun chain => ⟨extractedName field chain.1, chain.2⟩).foldl
    addExtracted []

end FieldPlan
