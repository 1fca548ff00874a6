import FieldPlan.InputTy
import FieldPlan.Json.Text
import FieldPlan.Path
import FieldPlan.Schema.Basic

/-!
# Errors in requests

* `PlanFault` : what is wrong with a request; `PlanFault.kind` and `PlanFault.message` classify and
  word it;
* `PlanError` : a fault at an output path; `PlanError.isFatal` tells whether it ends the operation
  or only its root field.
-/

namespace FieldPlan

/-- The kinds of errors. -/
inductive ErrorKind where
  | argument
  | schema
  | inputShape
  | extension
deriving DecidableEq, Repr, Inhabited

def ErrorKind.text : ErrorKind → String
  | .argument => "argument error"
  | .schema => "schema error"
  | .inputShape => "input shape error"
  | .extension => "extension error"

def ErrorKind.name : ErrorKind → String
  | .argument => "Argument"
  | .schema => "SchemaCompile"
  | .inputShape => "InputShape"
  | .extension => "Extension"

/-- What is wrong with a request. -/
inductive PlanFault where
  | undeclaredArgument (argument field : String)
  | missingArgument (field argument : String) (ty : InputTy)
  | badArgument (argument : String) (expected : InputTy) (value : Json)
  | undeclaredInputField (key input : String)
  | missingInputField (input key : String) (ty : InputTy)
  | badDirective (message : String)
  | badExtensionArgument (message : String)
  | notExactlyOne (argument input : String)
  | extension (name message : String)
  | noRequestRoot (kind : OperationKind)
  | noOperationRoot (kind : OperationKind)
  | unknownInputType (name : String)
  | fragmentOnUnknownType (fragment on : String)
  | inlineOnUnknownType (on : String)
  | inlineOnOtherType (on owner : String)
  | unknownField (name owner : String)
  | needlessSelection (field : String) (ty : Ty)
  | noSelection (field : String) (ty : Ty)
  | unknownFragment (name : String)
  | cyclicFragment (name : String)
  | endlessExpansion
  | missingNode (id : NodeId)
  | unknownDirective (name : String)
  | misplacedDirective (name : String) (location : Location)
  | tooDeep (maxDepth : Nat)
  | notAList (field : String) (ty : Ty)
  | unregisteredService (name : ServiceName)

namespace PlanFault

def kind : PlanFault → ErrorKind
  | .undeclaredArgument .. | .missingArgument .. | .badArgument .. | .undeclaredInputField ..
  | .missingInputField .. | .badDirective _ | .badExtensionArgument _ => .argument
  | .notExactlyOne .. => .inputShape
  | .extension .. => .extension
  | _ => .schema

def message : PlanFault → String
  | .undeclaredArgument a f => "No argument '" ++ a ++ "' found on field '" ++ f ++ "'"
  | .missingArgument f a t =>
    "Field '" ++ f ++ "' requires argument '" ++ a ++ "' of type " ++ t.text
  | .badArgument a t v => "Argument '" ++ a ++ "' expected " ++ t.text ++ " but got " ++ v.compact
  | .undeclaredInputField k i => "Field '" ++ k ++ "' is not defined on input type '" ++ i ++ "'"
  | .missingInputField i k t =>
    "Input type '" ++ i ++ "' requires field '" ++ k ++ "' of type " ++ t.text
  | .badDirective m => m
  | .badExtensionArgument m => m
  | .notExactlyOne a i =>
    "Exactly one field must be specified for argument " ++ a ++ " of type " ++ i ++ "."
  | .extension _ m => m
  | .noRequestRoot k => "Schema does not define a " ++ k.name ++ " type"
  | .noOperationRoot k => "Schema has no root type for " ++ k.name ++ " operations"
  | .unknownInputType n => "Unknown input type '" ++ n ++ "'"
  | .fragmentOnUnknownType f on =>
    "Fragment '" ++ f ++ "' is declared on unknown type '" ++ on ++ "'"
  | .inlineOnUnknownType on => "Inline fragment on unknown type '" ++ on ++ "'"
  | .inlineOnOtherType on owner =>
    "Inline fragment on '" ++ on ++ "' cannot be used on type '" ++ owner ++ "'"
  | .unknownField n owner => "Field '" ++ n ++ "' not found on type '" ++ owner ++ "'"
  | .needlessSelection f t => "Field '" ++ f ++ "' of type " ++ t.text ++ " has no subfields"
  | .noSelection f t =>
    "Field '" ++ f ++ "' of type " ++ t.text ++ " must have a selection of subfields"
  | .unknownFragment n => "Fragment '" ++ n ++ "' not found"
  | .cyclicFragment n => "Fragment '" ++ n ++ "' spreads itself"
  | .endlessExpansion => "Selection never ends"
  | .missingNode id => "There is no node " ++ toString id
  | .unknownDirective n => "Unknown directive '@" ++ n ++ "'"
  | .misplacedDirective n l => "Directive '@" ++ n ++ "' is not allowed on " ++ l.name
  | .tooDeep n => "Selection exceeds the maximum depth of " ++ toString n
  | .notAList f t => "Field '" ++ f ++ "' of type " ++ t.text ++ " is not a list"
  | .unregisteredService s => "Service '" ++ s ++ "' is not registered"

def extension? : PlanFault → Option String
  | .extension name _ => some name
  | _ => none

end PlanFault

/-- A fault at an output path. -/
structure PlanError where
  path : Path
  fault : PlanFault

namespace PlanError

def kind (e : PlanError) : ErrorKind := e.fault.kind

def message (e : PlanError) : String := e.fault.message

def isFatal (e : PlanError) : Bool := e.kind = .schema

def text (e : PlanError) : String :=
  match e.fault with
  | .extension name m => e.path.text ++ ": extension '" ++ name ++ "' failed: " ++ m
  | fault => e.path.text ++ ": " ++ fault.message

end PlanError

end FieldPlan
