import FieldPlan.Ty.Reference

/-!
# Types of arguments

* `InputTy` : scalars, enumerations, input objects and lists of them, each with a flag that says
  whether null is admitted;
* `InputTy.text` : the notation of a type;
* `InputTy.ofReference` : the type that a reference denotes, given which names are enumerations.
-/

namespace FieldPlan

/-- The type of an argument or of a field of an input object. -/
inductive InputTy where
  | scalar (s : Scalar) (nullable : Bool)
  | enum (name : String) (nullable : Bool)
  | object (name : String) (nullable : Bool)
  | list (element : InputTy) (nullable : Bool)
deriving DecidableEq, Repr, Inhabited

namespace InputTy

def nullable : InputTy → Bool
  | .scalar _ n | .enum _ n | .object _ n | .list _ n => n

def nonNull : InputTy → InputTy
  | .scalar s _ => .scalar s false
  | .enum e _ => .enum e false
  | .object o _ => .object o false
  | .list t _ => .list t false

def text : InputTy → String
  | .scalar s n => s.name ++ Ty.mark n
  | .enum e n => e ++ Ty.mark n
  | .object o n => o ++ Ty.mark n
  | .list t n => "[" ++ t.text ++ "]" ++ Ty.mark n

def named? (isEnum : String → Bool) (name : String) (nullable : Bool) : Option InputTy :=
  match Scalar.ofName? name with
  | some s => some (.scalar s nullable)
  | none =>
    if isEnum name then some (.enum name nullable)
    else if Reference.isName name then some (.object name nullable)
    else none

def ofReference (isEnum : String → Bool) (text : String) : Except String InputTy :=
  Reference.read (named? isEnum) .list text.toList

end InputTy

end FieldPlan
