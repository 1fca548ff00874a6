import FieldPlan.Directive
import FieldPlan.Extension.Basic

/-!
# Schemas

* `OperationKind` : queries and mutations;
* `ObjectType`, `Schema` : an entity with its fields by name; entities, all their fields by number,
  input objects, enumerations, root entities and directives;
* `Schema.field?`, `Schema.fieldById?` : the field of an owner and a name, and of a number.
-/

namespace FieldPlan

inductive OperationKind where
  | query
  | mutation
deriving DecidableEq, Repr, Inhabited

def OperationKind.name : OperationKind → String
  | .query => "Query"
  | .mutation => "Mutation"

/-- An input object; `oneOf` asks for exactly one field. -/
structure InputObject where
  name : String
  fields : Dict InputTy
  oneOf : Bool
deriving Inhabited

structure Enumeration where
  name : String
  values : List String
deriving Inhabited

/-- An entity with its fields by name, in the order of their registration. -/
structure ObjectType where
  name : String
  fields : Dict Field
  description : Option String

/-- A schema. The numbers of parameters from `fresh` on occur nowhere in it. -/
structure Schema where
  query : String
  mutation : Option String
  types : Dict ObjectType
  inputs : Dict InputObject
  enums : Dict Enumeration
  /-- The fields of all entities at the places of their numbers. -/
  fields : List Field
  directives : Dict Directive
  fresh : Nat

namespace Schema

def rootType (s : Schema) : OperationKind → Option String
  | .query => some s.query
  | .mutation => s.mutation

def field? (s : Schema) (owner name : String) : Option Field :=
  (s.types.find? owner).bind fun object => object.fields.find? name

def fieldById? (s : Schema) (id : FieldId) : Option Field := s.fields[id]?

end Schema

end FieldPlan
