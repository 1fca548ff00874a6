import FieldPlan.Planning.Operation
import FieldPlan.Ty.Serial

/-!
# Serialized plans

* `Param.toJson`, `Expr.toJson`, `Binding.toJson`, `Plan.toJson`, `PlannedField.toJson`,
  `FieldError.toJson`, `PlannedOperation.toJson` : the JSON form of expressions, plans and
  operations; every form of an expression is told by a key of its own.
-/

namespace FieldPlan

def Param.members (p : Param) : List (String × Json) :=
  [("id", .int p.id), ("name", .str p.name), ("ty", p.ty.toJson)]

def Param.toJson (p : Param) : Json := .obj p.members

def Direction.word : Direction → String
  | .ascending => "ASC"
  | .descending => "DESC"

def Builtin.toJson : Builtin → Json
  | .orderBy d => .obj [("fn", .str "order_by"), ("direction", .str d.word)]
  | .thenBy d => .obj [("fn", .str "then_by"), ("direction", .str d.word)]
  | f => .obj [("fn", .str f.name)]

def opJson (op : String) (parts : List (String × Json)) : Json := .obj (("op", .str op) :: parts)

def shapeJson (name : String) (fields : List (String × Ty)) : Json :=
  .obj [("name", .str name), ("fields", .arr (Ty.fieldsJson fields))]

mutual

def Expr.toJson : Expr → Json
  | .param p => opJson "param" p.members
  | .constant v t => opJson "constant" [("value", v), ("ty", t.toJson)]
  | .null t => opJson "null" [("ty", t.toJson)]
  | .service s => opJson "service_ref" [("service", .str s)]
  | .member target name t =>
    opJson "member" [("target", target.toJson), ("name", .str name), ("ty", t.toJson)]
  | .condition test a b =>
    opJson "condition" [("test", test.toJson), ("if_true", a.toJson), ("if_false", b.toJson)]
  | .equal a b => opJson "equal" [("lhs", a.toJson), ("rhs", b.toJson)]
  | .builtin f args =>
    opJson "builtin" [("function", f.toJson), ("args", .arr (Expr.listJson args))]
  | .invoke r method args t =>
    opJson "invoke" [("receiver", r.toJson), ("method", .str method),
      ("args", .arr (Expr.listJson args)), ("ty", t.toJson)]
  | .lambda p body => opJson "lambda" [("param", p.toJson), ("body", body.toJson)]
  | .record name fields =>
    opJson "new" [("shape", shapeJson name (Expr.fieldTys fields)),
      ("fields", .arr (Expr.fieldsJson fields))]
  | .select source p body =>
    opJson "select" [("source", source.toJson), ("param", p.toJson), ("body", body.toJson)]
  | .letIn p value body =>
    opJson "let" [("param", p.toJson), ("value", value.toJson), ("body", body.toJson)]

def Expr.listJson : List Expr → List Json
  | [] => []
  | e :: es => e.toJson :: Expr.listJson es

def Expr.fieldsJson : List (String × Expr) → List Json
  | [] => []
  | (name, e) :: rest => .arr [.str name, e.toJson] :: Expr.fieldsJson rest

end

def Binding.toJson : Binding → Json
  | .value v => .obj [("binding", .str "value"), ("value", v)]
  | .service s => .obj [("binding", .str "service"), ("value", .str s)]

def namesJson (names : List String) : Json := .arr (names.map .str)

def Plan.toJson (p : Plan) : Json :=
  .obj [("root", p.root.toJson), ("body", p.body.toJson),
    ("bindings", .arr (p.bindings.map fun b => .arr [b.1.toJson, b.2.toJson])),
    ("services", namesJson p.services)]

def PlannedField.toJson (f : PlannedField) : Json :=
  .obj [("name", .str f.name), ("shape_pass", f.shapePass.elim .null Plan.toJson),
    ("service_pass", f.servicePass.elim .null Plan.toJson)]

def FieldError.toJson (e : FieldError) : Json :=
  .obj [("field", .str e.field), ("path", namesJson e.error.path),
    ("kind", .str e.error.kind.name), ("message", .str e.error.message)]

def OperationKind.word : OperationKind → String
  | .query => "query"
  | .mutation => "mutation"

def PlannedOperation.toJson (o : PlannedOperation) : Json :=
  .obj [("kind", .str o.kind.word), ("fields", .arr (o.fields.map (·.toJson))),
    ("errors", .arr (o.errors.map (·.toJson)))]

end FieldPlan
