import FieldPlan.Json.Basic
import FieldPlan.Ty.Basic

/-!
# Services

* `Service σ` : answers a method call, and may read and change a state `σ`;
* `Services σ` : which services there are;
* `ServiceError.message` : why a call failed.
-/

namespace FieldPlan

/-- Why a service call failed. -/
inductive ServiceError where
  | unknownMethod (method : String)
  | failed (message : String)
deriving DecidableEq, Repr, Inhabited

def ServiceError.message : ServiceError → String
  | .unknownMethod method => "Unknown method '" ++ method ++ "'"
  | .failed message => message

/-- A service: its answer to a method and arguments. -/
abbrev Service (σ : Type) := String → List Json → ExceptT ServiceError (StateM σ) Json

abbrev Services (σ : Type) := ServiceName → Option (Service σ)

end FieldPlan
