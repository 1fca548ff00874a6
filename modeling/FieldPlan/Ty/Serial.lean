import FieldPlan.Json.Decode
import FieldPlan.Ty.Basic

/-!
# Serialized types

* `Ty.toJson` : the JSON form of a type;
* `Ty.decode` : the type that a document in this form denotes.
-/

namespace FieldPlan

def Scalar.word : Scalar → String
  | .boolean => "boolean"
  | .int => "int"
  | .float => "float"
  | .string => "string"
  | .id => "id"
  | .json => "json"

def kindJson (kind : String) (of : Json) (nullable : Bool) : Json :=
  .obj [("kind", .obj [("kind", .str kind), ("of", of)]), ("nullable", .bool nullable)]

namespace Ty

mutual

def toJson : Ty → Json
  | .scalar s n => kindJson "scalar" (.str s.word) n
  | .entity e n => kindJson "entity" (.str e) n
  | .record name fields n =>
    kindJson "record" (.obj [("name", .str name), ("fields", .arr (fieldsJson fields))]) n
  | .list t n => kindJson "list" t.toJson n
  | .service s n => kindJson "service" (.str s) n

def fieldsJson : List (String × Ty) → List Json
  | [] => []
  | (name, t) :: rest => .arr [.str name, t.toJson] :: fieldsJson rest

end

open Decode

def decodeScalar : Decoder Scalar := choice (Scalar.all.map fun s => (s.word, s))

/-- Decodes the name and the fields of a record. -/
def decodeShape (field : Decoder Ty) : Decoder (String × List (String × Ty)) := fun d => do
  let ms ← Decode.record ["name", "fields"] false d
  let name ← required ms "name" Decode.text
  let fields ← required ms "fields" (items (pair Decode.text field))
  pure (name, fields)

/-- Decodes a type that nests at most `depth` levels. -/
def decodeWithin : Nat → Decoder Ty
  | 0, _ => none
  | depth + 1, d => do
    let ms ← Decode.record ["kind", "nullable"] false d
    let nullable ← required ms "nullable" flag
    let form ← required ms "kind" (Decode.record ["kind", "of"] false)
    let content ← required form "kind" (choice [
      ("scalar", fun d => (decodeScalar d).map fun s => Ty.scalar s nullable),
      ("entity", fun d => (Decode.text d).map fun e => Ty.entity e nullable),
      ("record", fun d => (decodeShape (decodeWithin depth) d).map fun r =>
        Ty.record r.1 r.2 nullable),
      ("list", fun d => (decodeWithin depth d).map fun t => Ty.list t nullable),
      ("service", fun d => (Decode.text d).map fun s => Ty.service s nullable)])
    required form "of" content

def decode : Decoder Ty := fun d => decodeWithin d.depth d

end Ty

end FieldPlan
