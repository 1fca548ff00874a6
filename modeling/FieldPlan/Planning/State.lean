import FieldPlan.Expr.Replacement
import FieldPlan.Plan.Basic
import FieldPlan.Planning.Error

/-!
# The state of planning

* `PlanState` : the bindings and services that one plan has gathered so far;
* `Planning α` : computations that gather them, draw fresh parameters and may fail;
* `addConstant`, `addServices`, `serviceParam`, `bindServices` : what is gathered.
-/

namespace FieldPlan

/-- What one plan has gathered so far, and the first number of a parameter not drawn yet. -/
structure PlanState where
  fresh : Nat
  bindings : List (Param × Binding) := []
  services : List ServiceName := []
  serviceParams : Dict Param := []

abbrev Planning := StateT PlanState (Except PlanError)

/-- Runs a drawing of parameters while planning. -/
def draw {α : Type} (x : Fresh α) : Planning α := fun s =>
  let (a, fresh) := x.run s.fresh
  .ok (a, { s with fresh := fresh })

def refuse {α : Type} (path : Path) (fault : PlanFault) : Planning α := throw ⟨path, fault⟩

/-- Runs a check at a path. -/
def checkAt {α : Type} (path : Path) (x : Except PlanFault α) : Planning α :=
  StateT.lift (x.mapError fun fault => ⟨path, fault⟩)

def addConstant (p : Param) (v : Json) : Planning Unit :=
  modify fun s => { s with bindings := s.bindings ++ [(p, .value v)] }

/-- Notes the services that are called. -/
def addServices (names : List ServiceName) : Planning Unit :=
  modify fun s => { s with services := names.foldl Expr.addName s.services }

/-- The parameter that stands for a service in this plan. -/
def serviceParam (name : ServiceName) : Planning Param := do
  match (← get).serviceParams.find? name with
  | some p => pure p
  | none => do
    let p ← draw (Fresh.param name (.service name false))
    modify fun s => { s with
      bindings := s.bindings ++ [(p, .service name)]
      services := Expr.addName s.services name
      serviceParams := s.serviceParams.insert name p }
    pure p

def bindHandles (e : Expr) : Planning Expr := do
  let pairs ← e.services.mapM fun name => do
    let p ← serviceParam name
    pure (Expr.service name, Expr.param p)
  draw (e.replaceAll pairs)

/-- Binds the services of an expression, which must be among the registered ones if these are known.
-/
def bindServices (registered : Option (ServiceName → Bool)) (path : Path) (e : Expr) :
    Planning Expr := do
  if e.services.isEmpty then pure e
  else
    match registered.bind fun r => e.services.find? fun name => !r name with
    | some missing => refuse path (.unregisteredService missing)
    | none => do
      addServices e.services
      bindHandles e

end FieldPlan
