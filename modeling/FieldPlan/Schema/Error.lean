/-!
# Errors in schemas

* `SchemaError` : why a schema was refused, and `SchemaError.message` its text.
-/

namespace FieldPlan

/-- What refers to a type or field that does not exist. -/
inductive Referrer where
  | root
  | newField (name : String)
  | field (owner name : String)
  | input (name : String)
deriving DecidableEq, Repr, Inhabited

def Referrer.text : Referrer → String
  | .root => "the schema root"
  | .newField name => "field '" ++ name ++ "'"
  | .field owner name => "field '" ++ owner ++ "." ++ name ++ "'"
  | .input name => "input type '" ++ name ++ "'"

/-- What is wrong in the description of a field. -/
inductive FieldFault where
  | severalSources
  | emptyPathSegment
  | badArgumentSource
deriving DecidableEq, Repr, Inhabited

def FieldFault.message : FieldFault → String
  | .severalSources => "only one of path, service or constant may be set"
  | .emptyPathSegment => "path segments must not be empty"
  | .badArgumentSource => "use_arguments_from must name 'Type.field'"

/-- Why a schema was refused. -/
inductive SchemaError where
  | duplicateType (name : String)
  | duplicateField (owner field : String)
  | unknownType (name : String) (referrer : Referrer)
  | unknownField (owner field : String) (referrer : Referrer)
  | invalidTypeRef (text : String)
  | invalidField (owner field : String) (fault : FieldFault)
  | oneOfNotNullable (name : String)
deriving DecidableEq, Repr, Inhabited

def SchemaError.message : SchemaError → String
  | .duplicateType name => "Duplicate type '" ++ name ++ "'"
  | .duplicateField owner field => "Duplicate field '" ++ field ++ "' on type '" ++ owner ++ "'"
  | .unknownType name referrer => "Unknown type '" ++ name ++ "' referenced by " ++ referrer.text
  | .unknownField owner field referrer =>
    "Unknown field '" ++ owner ++ "." ++ field ++ "' referenced by " ++ referrer.text
  | .invalidTypeRef text => "Invalid type reference '" ++ text ++ "'"
  | .invalidField owner field fault =>
    "Invalid field '" ++ owner ++ "." ++ field ++ "': " ++ fault.message
  | .oneOfNotNullable name =>
    name ++ " is a OneOf type but all its fields are not nullable. " ++
      "OneOf input types require all the field to be nullable."

end FieldPlan
