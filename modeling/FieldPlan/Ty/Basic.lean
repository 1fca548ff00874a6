import FieldPlan.Dict

/-!
# Static types of expressions

* `Scalar`, `Ty` : scalars, schema entities, records built by a plan, lists and service handles,
  each with a flag that says whether null is admitted; equality of types is decidable;
* `Ty.member?` : the type of a record's member; entities keep their members in the schema;
* `Ty.entityName` : the innermost entity of a type;
* `Ty.sameShape` : equality up to nullability at every level;
* `Ty.text` : the notation of a type.
-/

namespace FieldPlan

inductive Scalar where
  | boolean
  | int
  | float
  | string
  | id
  | json
deriving DecidableEq, Repr, Inhabited

/-- The name of a scalar in type references. -/
def Scalar.name : Scalar → String
  | .boolean => "Boolean"
  | .int => "Int"
  | .float => "Float"
  | .string => "String"
  | .id => "ID"
  | .json => "JSON"

def Scalar.all : List Scalar := [.boolean, .int, .float, .string, .id, .json]

def Scalar.ofName? (name : String) : Option Scalar := Scalar.all.find? fun s => s.name == name

abbrev ServiceName := String

/-- A static type; the last flag of each form says whether it admits null. -/
inductive Ty where
  | scalar (s : Scalar) (nullable : Bool)
  | entity (name : String) (nullable : Bool)
  | record (name : String) (fields : List (String × Ty)) (nullable : Bool)
  | list (element : Ty) (nullable : Bool)
  | service (name : ServiceName) (nullable : Bool)
deriving Inhabited

namespace Ty

/-! ## Decidable equality -/

mutual

def beq : Ty → Ty → Bool
  | .scalar a m, .scalar b n => a == b && m == n
  | .entity a m, .entity b n => a == b && m == n
  | .record a fs m, .record b gs n => a == b && beqFields fs gs && m == n
  | .list a m, .list b n => beq a b && m == n
  | .service a m, .service b n => a == b && m == n
  | _, _ => false

/-- Whether two lists of named types are equal. -/
def beqFields : List (String × Ty) → List (String × Ty) → Bool
  | [], [] => true
  | (a, s) :: fs, (b, t) :: gs => a == b && beq s t && beqFields fs gs
  | _, _ => false

end

mutual

theorem beq_iff (s t : Ty) : beq s t = true ↔ s = t := by
  match s, t with
  | .scalar _ _, t => cases t <;> simp [beq]
  | .entity _ _, t => cases t <;> simp [beq]
  | .record _ fs _, t => cases t <;> simp [beq, beqFields_iff fs, and_assoc]
  | .list s _, t => cases t <;> simp [beq, beq_iff s]
  | .service _ _, t => cases t <;> simp [beq]

theorem beqFields_iff (fs gs : List (String × Ty)) : beqFields fs gs = true ↔ fs = gs := by
  match fs, gs with
  | [], gs => cases gs <;> simp [beqFields]
  | (_, s) :: fs, [] => simp [beqFields]
  | (_, s) :: fs, (_, t) :: gs =>
    simp [beqFields, beq_iff s t, beqFields_iff fs gs]

end

instance : DecidableEq Ty := fun s t => decidable_of_iff (beq s t = true) (beq_iff s t)

/-! ## Nullability -/

def nullable : Ty → Bool
  | .scalar _ n | .entity _ n | .record _ _ n | .list _ n | .service _ n => n

def withNullable (n : Bool) : Ty → Ty
  | .scalar s _ => .scalar s n
  | .entity e _ => .entity e n
  | .record r fs _ => .record r fs n
  | .list t _ => .list t n
  | .service s _ => .service s n

def nonNull (t : Ty) : Ty := t.withNullable false

def orNull (t : Ty) : Ty := t.withNullable true

@[simp] theorem nullable_withNullable (n : Bool) (t : Ty) : (t.withNullable n).nullable = n := by
  cases t <;> rfl

/-! ## Common types -/

def bool : Ty := .scalar .boolean false

def json : Ty := .scalar .json true

/-- A whole number. -/
def count : Ty := .scalar .int false

/-! ## Views -/

def element? : Ty → Option Ty
  | .list t _ => some t
  | _ => none

def isList (t : Ty) : Bool := t.element?.isSome

def recordName? : Ty → Option String
  | .record name _ _ => some name
  | _ => none

def member? (t : Ty) (name : String) : Option Ty :=
  match t with
  | .record _ fields _ => Dict.find? fields name
  | _ => none

def entityName : Ty → Option String
  | .entity name _ => some name
  | .list t _ => t.entityName
  | _ => none

/-- Whether a field of this type selects into the entities of a list. -/
def selectsList (t : Ty) : Bool := t.isList && t.entityName.isSome

/-! ## Shape -/

mutual

/-- Equality up to nullability at every level. -/
def sameShape : Ty → Ty → Bool
  | .scalar a _, .scalar b _ => a == b
  | .entity a _, .entity b _ => a == b
  | .record a fs _, .record b gs _ => a == b && sameShapeFields fs gs
  | .list a _, .list b _ => sameShape a b
  | .service a _, .service b _ => a == b
  | _, _ => false

/-- Equality of named types up to nullability. -/
def sameShapeFields : List (String × Ty) → List (String × Ty) → Bool
  | [], [] => true
  | (a, s) :: fs, (b, t) :: gs => a == b && sameShape s t && sameShapeFields fs gs
  | _, _ => false

end

/-! ## Notation -/

/-- The mark of a type without null; records and services never carry it. -/
def mark (nullable : Bool) : String := if nullable then "" else "!"

mutual

/-- The notation of a type: `[Person!]!` is a list without null of entities without null. -/
def text : Ty → String
  | .scalar s n => s.name ++ mark n
  | .entity e n => e ++ mark n
  | .record r fs _ => r ++ " \x7b" ++ ",".intercalate (fieldTexts fs) ++ " \x7d"
  | .list t n => "[" ++ text t ++ "]" ++ mark n
  | .service s _ => "@" ++ s

def fieldTexts : List (String × Ty) → List String
  | [] => []
  | (name, t) :: rest => (" " ++ name ++ ": " ++ text t) :: fieldTexts rest

end

end Ty

end FieldPlan
