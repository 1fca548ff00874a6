import FieldPlan.Json.Basic
import FieldPlan.Ty.Basic

/-!
# Expressions of compiled plans

* `Param` : a variable; its identity is its number, its name is for display;
* `Expr` : expressions over one root parameter; `Expr.ty` is the static type;
* `Expr.eqv` : structural equality, parameters compared by identity and constants by value;
* `Expr.children`, `Expr.subterms`, `Expr.size` : direct parts, all parts in pre-order, their
  number;
* `Expr.topmost` : the outermost parts on which a function has an answer;
* `Expr.mentions`, `Expr.contains`, `Expr.services` : occurrences of a parameter, of an expression
  and of service handles;
* `Expr.nullGuarded` : `guard == null ? null : build`.
-/

namespace FieldPlan

/-- A variable. -/
structure Param where
  id : Nat
  name : String
  ty : Ty
deriving DecidableEq, Inhabited

/-- The direction of a sort key. -/
inductive Direction where
  | ascending
  | descending
deriving DecidableEq, Repr, Inhabited

/-- The list functions: skipping and taking a count, sorting by a key, counting. -/
inductive Builtin where
  | skip
  | take
  | orderBy (direction : Direction)
  | thenBy (direction : Direction)
  | count
deriving DecidableEq, Repr, Inhabited

def Builtin.name : Builtin → String
  | .skip => "skip"
  | .take => "take"
  | .orderBy .ascending => "order_by"
  | .orderBy .descending => "order_by_desc"
  | .thenBy .ascending => "then_by"
  | .thenBy .descending => "then_by_desc"
  | .count => "count"

def Builtin.sorts : Builtin → Bool
  | .orderBy _ | .thenBy _ => true
  | _ => false

/-- An expression. `service` is a handle that is bound to a parameter before execution, and `letIn`
evaluates its value once. -/
inductive Expr where
  | param (p : Param)
  | constant (value : Json) (ty : Ty)
  | null (ty : Ty)
  | service (name : ServiceName)
  | member (target : Expr) (name : String) (ty : Ty)
  | condition (test ifTrue ifFalse : Expr)
  | equal (lhs rhs : Expr)
  | builtin (function : Builtin) (args : List Expr)
  | invoke (receiver : Expr) (method : String) (args : List Expr) (ty : Ty)
  | lambda (p : Param) (body : Expr)
  | record (name : String) (fields : List (String × Expr))
  | select (source : Expr) (p : Param) (body : Expr)
  | letIn (p : Param) (value body : Expr)
deriving Inhabited

namespace Expr

/-! ## Equality -/

mutual

def eqv : Expr → Expr → Bool
  | .param p, .param q => p.id == q.id
  | .constant v s, .constant w t => v == w && s == t
  | .null s, .null t => s == t
  | .service a, .service b => a == b
  | .member e a s, .member f b t => eqv e f && a == b && s == t
  | .condition a b c, .condition d e f => eqv a d && eqv b e && eqv c f
  | .equal a b, .equal c d => eqv a c && eqv b d
  | .builtin f as, .builtin g bs => f == g && eqvList as bs
  | .invoke r m as s, .invoke q n bs t => eqv r q && m == n && eqvList as bs && s == t
  | .lambda p a, .lambda q b => p.id == q.id && eqv a b
  | .record a fs, .record b gs => a == b && eqvFields fs gs
  | .select s p a, .select t q b => eqv s t && p.id == q.id && eqv a b
  | .letIn p v a, .letIn q w b => p.id == q.id && eqv v w && eqv a b
  | _, _ => false

def eqvList : List Expr → List Expr → Bool
  | [], [] => true
  | a :: as, b :: bs => eqv a b && eqvList as bs
  | _, _ => false

/-- Structural equality of named expressions, one by one. -/
def eqvFields : List (String × Expr) → List (String × Expr) → Bool
  | [], [] => true
  | (a, e) :: fs, (b, f) :: gs => a == b && eqv e f && eqvFields fs gs
  | _, _ => false

end

instance : BEq Expr := ⟨eqv⟩

/-! ## Static types -/

def isNullLiteral : Expr → Bool
  | .null _ => true
  | _ => false

def isConstruction : Expr → Bool
  | .record _ _ => true
  | _ => false

/-- The type of a choice between two expressions: a null literal only adds null to the other one. -/
def choiceTy (ifTrue ifFalse : Expr) (s t : Ty) : Ty :=
  if ifTrue.isNullLiteral then t.orNull
  else if ifFalse.isNullLiteral then s.orNull
  else s.withNullable (s.nullable || t.nullable)

mutual

def ty : Expr → Ty
  | .param p => p.ty
  | .constant _ t => t
  | .null t => t
  | .service s => .service s false
  | .member _ _ t => t
  | .condition _ a b => choiceTy a b (ty a) (ty b)
  | .equal _ _ => .bool
  | .builtin f args => if f = .count then .count else headTy args
  | .invoke _ _ _ t => t
  | .lambda _ body => ty body
  | .record name fields => .record name (fieldTys fields) false
  | .select _ _ body => .list (ty body) false
  | .letIn _ _ body => ty body

def headTy : List Expr → Ty
  | [] => .json
  | e :: _ => ty e

def fieldTys : List (String × Expr) → List (String × Ty)
  | [] => []
  | (name, e) :: rest => (name, ty e) :: fieldTys rest

end

/-! ## Smart constructors -/

def nullOf (t : Ty) : Expr := .null t.orNull

/-- A member access on a record that has the member. -/
def recordMember? (target : Expr) (name : String) : Option Expr :=
  (target.ty.member? name).map fun t => .member target name t

/-- Whether an expression is null. -/
def isNull (e : Expr) : Expr := .equal e (nullOf e.ty)

/-- The expression `guard == null ? null : build`. -/
def nullGuarded (guard build : Expr) : Expr := .condition (isNull guard) (nullOf build.ty) build

/-! ## Parts -/

/-- The direct parts in the order of their evaluation. -/
def children : Expr → List Expr
  | .param _ | .constant _ _ | .null _ | .service _ => []
  | .member target _ _ => [target]
  | .condition test a b => [test, a, b]
  | .equal a b => [a, b]
  | .builtin _ args => args
  | .invoke receiver _ args _ => receiver :: args
  | .lambda _ body => [body]
  | .record _ fields => fields.map (·.2)
  | .select source _ body => [source, body]
  | .letIn _ value body => [value, body]

mutual

/-- All parts in pre-order, the expression itself first. -/
def subterms : Expr → List Expr
  | .member target a t => .member target a t :: subterms target
  | .condition test a b => .condition test a b :: (subterms test ++ subterms a ++ subterms b)
  | .equal a b => .equal a b :: (subterms a ++ subterms b)
  | .builtin f args => .builtin f args :: subtermsList args
  | .invoke r m args t => .invoke r m args t :: (subterms r ++ subtermsList args)
  | .lambda p body => .lambda p body :: subterms body
  | .record name fields => .record name fields :: subtermsFields fields
  | .select source p body => .select source p body :: (subterms source ++ subterms body)
  | .letIn p value body => .letIn p value body :: (subterms value ++ subterms body)
  | e => [e]

def subtermsList : List Expr → List Expr
  | [] => []
  | e :: es => subterms e ++ subtermsList es

def subtermsFields : List (String × Expr) → List Expr
  | [] => []
  | (_, e) :: fields => subterms e ++ subtermsFields fields

end

mutual

/-- The answers of `f` at the topmost parts where it has one, in pre-order. -/
def topmost {α : Type} (f : Expr → Option α) : Expr → List α
  | .member target a t => (f (.member target a t)).elim (topmost f target) (fun x => [x])
  | .condition test a b =>
    (f (.condition test a b)).elim (topmost f test ++ topmost f a ++ topmost f b) (fun x => [x])
  | .equal a b => (f (.equal a b)).elim (topmost f a ++ topmost f b) (fun x => [x])
  | .builtin g args => (f (.builtin g args)).elim (topmostList f args) (fun x => [x])
  | .invoke r m args t =>
    (f (.invoke r m args t)).elim (topmost f r ++ topmostList f args) (fun x => [x])
  | .lambda p body => (f (.lambda p body)).elim (topmost f body) (fun x => [x])
  | .record name fields => (f (.record name fields)).elim (topmostFields f fields) (fun x => [x])
  | .select source p body =>
    (f (.select source p body)).elim (topmost f source ++ topmost f body) (fun x => [x])
  | .letIn p value body =>
    (f (.letIn p value body)).elim (topmost f value ++ topmost f body) (fun x => [x])
  | e => (f e).elim [] (fun x => [x])

def topmostList {α : Type} (f : Expr → Option α) : List Expr → List α
  | [] => []
  | e :: es => topmost f e ++ topmostList f es

/-- The answers of `f` in named expressions. -/
def topmostFields {α : Type} (f : Expr → Option α) : List (String × Expr) → List α
  | [] => []
  | (_, e) :: fields => topmost f e ++ topmostFields f fields

end

def size (e : Expr) : Nat := e.subterms.length

def contains (e target : Expr) : Bool := e.subterms.any (· == target)

def isParam (p : Param) : Expr → Bool
  | .param q => q.id == p.id
  | _ => false

def mentions (e : Expr) (p : Param) : Bool := e.subterms.any (isParam p)

def serviceName? : Expr → Option ServiceName
  | .service s => some s
  | _ => none

/-- Adds a name at the end unless it is there. -/
def addName (names : List String) (name : String) : List String :=
  if names.contains name then names else names ++ [name]

/-- The services whose handles occur, each once, in the order of their first occurrence. -/
def services (e : Expr) : List ServiceName :=
  (e.subterms.filterMap serviceName?).foldl addName []

end Expr

end FieldPlan
