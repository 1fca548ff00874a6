import FieldPlan.Expr.Text
import FieldPlan.Json.Order
import FieldPlan.Plan.Basic
import FieldPlan.Service

/-!
# Execution of plans

* `ExecError` : why an execution failed, and `ExecError.message` its text;
* `Expr.eval` : the value of an expression under bindings; parts are evaluated from left to right,
  and a chain of sort functions sorts once by all its keys, the innermost key counting most;
* `Plan.run`, `PlannedField.run`, `runFields` : a plan on its input, a root field on the data, and
  the object of all root fields.
-/

namespace FieldPlan

/-! ## Errors -/

/-- A value or an expression of the wrong kind. -/
inductive TypeFault where
  | notAnObject (member : String) (value : Json)
  | notABoolean (value : Json)
  | serviceAsValue (service : ServiceName)
  | notAService (param : String)
  | notAReceiver (e : Expr)
  | strayLambda
  | notSelectable (value : Json)
  | noList (function : Builtin)
  | notAList (function : Builtin) (value : Json)
  | notACount (function : Builtin)
  | noSortKey (function : Builtin)
  | notSortable (value : Json)
  | notAKey (e : Expr)

def TypeFault.message : TypeFault → String
  | .notAnObject member v => "cannot read '" ++ member ++ "' from " ++ v.compact
  | .notABoolean v => "condition evaluated to " ++ v.compact
  | .serviceAsValue s => "service '" ++ s ++ "' used as a value"
  | .notAService p => "'" ++ p ++ "' is not a service"
  | .notAReceiver e => "cannot invoke a method on " ++ e.text
  | .strayLambda => "lambda evaluated outside of a list function"
  | .notSelectable v => "cannot select over " ++ v.compact
  | .noList f => f.name ++ " without a list"
  | .notAList f v => f.name ++ " over non-list " ++ v.compact
  | .notACount f => f.name ++ " count must be an integer"
  | .noSortKey f => f.name ++ " expects a list and a key"
  | .notSortable v => "cannot sort " ++ v.compact
  | .notAKey e => "expected a key lambda, got " ++ e.text

/-- Why an execution failed. -/
inductive ExecError where
  | unboundParameter (name : String)
  | unknownService (name : ServiceName)
  | service (name : ServiceName) (method : String) (cause : ServiceError)
  | type (fault : TypeFault)

def ExecError.message : ExecError → String
  | .unboundParameter p => "Unbound parameter '" ++ p ++ "'"
  | .unknownService s => "Service '" ++ s ++ "' is not available"
  | .service s method cause =>
    "Service '" ++ s ++ "' failed in '" ++ method ++ "': " ++ cause.message
  | .type fault => "Type error: " ++ fault.message

/-! ## Environments -/

/-- Computations that call services with a state `σ`; the state outlives an error. -/
abbrev Exec (σ : Type) := ExceptT ExecError (StateM σ)

def fault {σ α : Type} (f : TypeFault) : Exec σ α := throw (.type f)

/-- What a parameter stands for. -/
inductive Slot (σ : Type) where
  | value (v : Json)
  | service (name : ServiceName) (s : Service σ)

/-- What the parameters stand for, the innermost first. -/
abbrev Env (σ : Type) := List (Nat × Slot σ)

namespace Env

variable {σ : Type}

def bind (env : Env σ) (p : Param) (v : Json) : Env σ := (p.id, .value v) :: env

def slot (env : Env σ) (p : Param) : Exec σ (Slot σ) :=
  match env.find? fun e => e.1 == p.id with
  | some e => pure e.2
  | none => throw (.unboundParameter p.name)

def value (env : Env σ) (p : Param) : Exec σ Json := do
  match ← env.slot p with
  | .value v => pure v
  | .service s _ => fault (.serviceAsValue s)

end Env

variable {σ : Type}

def Services.get (services : Services σ) (name : ServiceName) : Exec σ (Service σ) :=
  match services name with
  | some s => pure s
  | none => throw (.unknownService name)

def receiver (services : Services σ) (env : Env σ) : Expr → Exec σ (ServiceName × Service σ)
  | .service s => do
    let service ← Services.get services s
    pure (s, service)
  | .param p => do
    match ← env.slot p with
    | .service s service => pure (s, service)
    | .value _ => fault (.notAService p.name)
  | e => fault (.notAReceiver e)

def call (name : ServiceName) (service : Service σ) (method : String) (args : List Json) :
    Exec σ Json :=
  fun state =>
    match service method args state with
    | (.ok v, state) => (.ok v, state)
    | (.error cause, state) => (.error (.service name method cause), state)

/-! ## Values -/

/-- A member of a value; null has every member, and an absent member is null. -/
def readMember (name : String) : Json → Exec σ Json
  | .null => pure .null
  | .obj members => pure ((Dict.find? members name).getD .null)
  | v => fault (.notAnObject name v)

def slice (function : Builtin) (items : List Json) (count : Json) : Exec σ Json :=
  match count.toNat? with
  | some n => pure (.arr (if function = .skip then items.drop n else items.take n))
  | none => fault (.notACount function)

/-! ## Sorting -/

/-- A sort key: its direction and its value on an item. -/
structure SortKey (σ : Type) where
  direction : Direction
  value : Json → Exec σ Json

/-- The order of two key values in a direction. -/
def Direction.order (d : Direction) (a b : Json) : Ordering :=
  match d with
  | .ascending => a.sortOrder b
  | .descending => b.sortOrder a

/-- The lexicographic order of two lists of key values. -/
def keyOrder : List Direction → List Json → List Json → Ordering
  | d :: ds, a :: as, b :: bs => (d.order a b).then (keyOrder ds as bs)
  | _, _, _ => .eq

/-- Sorts keyed items stably by their keys. -/
def sortKeyed (directions : List Direction) (items : List (List Json × Json)) : List Json :=
  (items.mergeSort fun a b => keyOrder directions a.1 b.1 != .gt).map (·.2)

def keyValues (keys : List (SortKey σ)) (item : Json) : Exec σ (List Json) :=
  keys.mapM fun key => key.value item

/-- Sorts a list by keys, the first counting most. -/
def sortBy (keys : List (SortKey σ)) : Json → Exec σ Json
  | .null => pure .null
  | .arr items => do
    let keyed ← items.mapM fun item => do
      let values ← keyValues keys item
      pure (values, item)
    pure (.arr (sortKeyed (keys.map (·.direction)) keyed))
  | v => fault (.notSortable v)

/-- Sorts the value of the source of a sort chain; without keys there is no chain. -/
def sorted (keys : List (SortKey σ)) (source : Exec σ Json) : Exec σ Json := do
  let v ← source
  match keys with
  | [] => pure v
  | _ => sortBy keys v

/-! ## Evaluation -/

mutual

/-- The value of an expression, sorted by the keys of the `then_by` calls around it. -/
def Expr.evalUnder (services : Services σ) : Expr → Env σ → List (SortKey σ) → Exec σ Json
  | .param p, env, keys => sorted keys (env.value p)
  | .constant v _, _, keys => sorted keys (pure v)
  | .null _, _, keys => sorted keys (pure .null)
  | .service s, _, keys => sorted keys (fault (.serviceAsValue s))
  | .member target name _, env, keys => sorted keys do
    readMember name (← target.evalUnder services env [])
  | .condition test a b, env, keys => sorted keys do
    match ← test.evalUnder services env [] with
    | .bool true => a.evalUnder services env []
    | .bool false => b.evalUnder services env []
    | v => fault (.notABoolean v)
  | .equal a b, env, keys => sorted keys do
    let v ← a.evalUnder services env []
    let w ← b.evalUnder services env []
    pure (.bool (v == w))
  | .builtin (.thenBy d) (list :: key :: _), env, keys =>
    list.evalUnder services env (⟨d, key.evalKey services env⟩ :: keys)
  | .builtin (.orderBy d) (list :: key :: _), env, keys => do
    sortBy (⟨d, key.evalKey services env⟩ :: keys) (← list.evalUnder services env [])
  | .builtin (.thenBy d) _, _, _ => fault (.noSortKey (.thenBy d))
  | .builtin (.orderBy d) _, _, _ => fault (.noSortKey (.orderBy d))
  | .builtin function [], _, _ => fault (.noList function)
  | .builtin .count (list :: _), env, keys => sorted keys do
    match ← list.evalUnder services env [] with
    | .null => pure (.int 0)
    | .arr items => pure (.int items.length)
    | v => fault (.notAList .count v)
  | .builtin function (list :: rest), env, keys => sorted keys do
    match ← list.evalUnder services env [] with
    | .null => pure .null
    | .arr items => slice function items (← Expr.evalHead services rest env)
    | v => fault (.notAList function v)
  | .invoke r method args _, env, keys => sorted keys do
    let (name, called) ← receiver services env r
    call name called method (← Expr.evalList services args env)
  | .lambda _ _, _, keys => sorted keys (fault .strayLambda)
  | .record _ fields, env, keys => sorted keys do
    pure (.obj (Dict.ofList (← Expr.evalFields services fields env)))
  | .select source p body, env, keys => sorted keys do
    match ← source.evalUnder services env [] with
    | .null => pure .null
    | .arr items => do
      pure (.arr (← items.mapM fun item => body.evalUnder services (env.bind p item) []))
    | v => fault (.notSelectable v)
  | .letIn p value body, env, keys => sorted keys do
    let v ← value.evalUnder services env []
    body.evalUnder services (env.bind p v) []

def Expr.evalKey (services : Services σ) : Expr → Env σ → Json → Exec σ Json
  | .lambda p body, env, item => body.evalUnder services (env.bind p item) []
  | e, _, _ => fault (.notAKey e)

/-- The value of the first expression, null when there is none. -/
def Expr.evalHead (services : Services σ) : List Expr → Env σ → Exec σ Json
  | [], _ => pure .null
  | e :: _, env => e.evalUnder services env []

def Expr.evalList (services : Services σ) : List Expr → Env σ → Exec σ (List Json)
  | [], _ => pure []
  | e :: es, env => do
    let v ← e.evalUnder services env []
    let vs ← Expr.evalList services es env
    pure (v :: vs)

def Expr.evalFields (services : Services σ) :
    List (String × Expr) → Env σ → Exec σ (List (String × Json))
  | [], _ => pure []
  | (name, e) :: fields, env => do
    let v ← e.evalUnder services env []
    let vs ← Expr.evalFields services fields env
    pure ((name, v) :: vs)

end

def Expr.eval (services : Services σ) (e : Expr) (env : Env σ) : Exec σ Json :=
  e.evalUnder services env []

/-! ## Plans -/

def Binding.slot (services : Services σ) : Binding → Exec σ (Slot σ)
  | .value v => pure (.value v)
  | .service s => do
    let service ← Services.get services s
    pure (.service s service)

/-- The environment of a plan on an input; a later binding of a parameter hides an earlier one. -/
def Plan.env (services : Services σ) (plan : Plan) (input : Json) : Exec σ (Env σ) :=
  plan.bindings.foldlM (fun env entry => do
    let slot ← entry.2.slot services
    pure ((entry.1.id, slot) :: env)) [(plan.root.id, .value input)]

def Plan.run (services : Services σ) (plan : Plan) (input : Json) : Exec σ Json := do
  let env ← plan.env services input
  plan.body.eval services env

/-- The value of a root field on the data, if it contributes one; null from the shape pass is final.
-/
def PlannedField.run (services : Services σ) (field : PlannedField) (data : Json) :
    Exec σ (Option Json) :=
  match field.shapePass, field.servicePass with
  | none, none => pure none
  | some shape, none => do return some (← shape.run services data)
  | none, some plan => do return some (← plan.run services data)
  | some shape, some plan => do
    match ← shape.run services data with
    | .null => pure (some .null)
    | materialized => return some (← plan.run services materialized)

/-- The object of the root fields that contribute a value. -/
def runFields (services : Services σ) (fields : List PlannedField) (data : Json) : Exec σ Json := do
  let members ← fields.foldlM (fun (members : Dict Json) field => do
    match ← field.run services data with
    | some v => pure (members.insert field.name v)
    | none => pure members) []
  pure (.obj members)

end FieldPlan
