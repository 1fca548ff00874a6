import FieldPlan.Schema.Basic
import FieldPlan.Schema.Error

/-!
# Building schemas

* `Resolve`, `FieldSpec` : where the value of a field comes from, and a field to be registered;
* `SchemaBuilder` : the parts registered so far, with an index of the fields by owner and name;
* `Registering` : steps on a builder, which outlives those that are refused;
* `SchemaBuilder.build` : checks that everything that is named exists, and gives the schema, whose
  entities have the fields once more by name.
-/

namespace FieldPlan

/-! ## Fields to be registered -/

/-- An argument of a service call. -/
inductive ServiceArg where
  | member (path : List String)
  | argument (name : String)
  | constant (value : Json)
deriving Inhabited

/-- Where the value of a field comes from. -/
inductive Resolve where
  | member (path : List String)
  | service (name : ServiceName) (method : String) (args : List ServiceArg)
  | constant (value : Json)
  | expr (e : Expr)
deriving Inhabited

/-- A field to be registered; `inherit` names the field whose arguments are inherited. -/
structure FieldSpec where
  name : String
  ty : Ty
  resolve : Resolve
  arguments : List ArgumentDef := []
  inherit : Option (String × String) := none
  extensions : List Extension := []
  roles : List String := []
  description : Option String := none

def FieldSpec.ofMember (name : String) (ty : Ty) : FieldSpec :=
  { name := name, ty := ty, resolve := .member [name] }

/-- The chain of members along a path; only the last step has the type `t`. -/
def memberChain (root : Expr) (t : Ty) : List String → Expr
  | [] => root
  | [name] => .member root name t
  | name :: rest => memberChain (.member root name .json) t rest

def ServiceArg.expr (owner arguments : Param) : ServiceArg → Expr
  | .member path => memberChain (.param owner) .json path
  | .argument name => .member (.param arguments) name .json
  | .constant v => .constant v .json

def FieldSpec.expr (spec : FieldSpec) (owner arguments : Param) : Expr :=
  match spec.resolve with
  | .member path => memberChain (.param owner) spec.ty path
  | .service name method args =>
    .invoke (.service name) method (args.map (·.expr owner arguments)) spec.ty
  | .constant v => .constant v spec.ty
  | .expr e => e

/-- The arguments of a field: its own, the last of a name counting, then those of its extensions. -/
def FieldSpec.argumentDefs (spec : FieldSpec) : Dict ArgumentDef :=
  let own := spec.arguments.foldl (fun (d : Dict ArgumentDef) a => d.insert a.name a) []
  (spec.extensions.flatMap (·.arguments)).foldl (fun d a => d.insertNew a.name a) own

/-! ## The builder -/

/-- A registered field and the field whose arguments it is to inherit. -/
structure PendingField where
  field : Field
  inherit : Option (String × String)

/-- The numbers of fields under their owners and names; the last one of an owner and a name counts. -/
abbrev FieldIndex := List ((String × String) × FieldId)

/-- The parts of a schema registered so far. -/
structure SchemaBuilder where
  query : String
  mutation : Option String
  types : Dict (Option String)
  fields : List PendingField
  index : FieldIndex
  /-- The parameters that stand for the values of entities. -/
  ownerParams : Dict Param
  /-- The parameter that stands for the record of arguments of any field. -/
  argsParam : Param
  inputs : Dict InputObject
  enums : Dict Enumeration
  directives : Dict Directive
  fresh : Nat

/-- Steps that register parts of a schema. A refused one leaves behind what it has made of the
builder until then. -/
abbrev Registering := ExceptT SchemaError (StateM SchemaBuilder)

namespace SchemaBuilder

/-- An empty builder that may use the numbers of parameters from `fresh` on. -/
def new (query : String) (mutation : Option String) (fresh : Nat) : SchemaBuilder where
  query := query
  mutation := mutation
  types := []
  fields := []
  index := []
  ownerParams := []
  argsParam := ⟨fresh, "args", Ty.json.nonNull⟩
  inputs := []
  enums := []
  directives := [("include", .includeIf), ("skip", .skipIf)]
  fresh := fresh + 1

def fieldId? (b : SchemaBuilder) (owner name : String) : Option FieldId :=
  b.index.lookup (owner, name)

def addType (name : String) (description : Option String) : Registering Unit := do
  let b ← get
  if b.types.contains name then throw (.duplicateType name)
  else set { b with types := b.types.insert name description }

def ownerParam (owner : String) : Registering Param := do
  let b ← get
  match b.ownerParams.find? owner with
  | some p => pure p
  | none =>
    let p : Param := ⟨b.fresh, owner.toLower, .entity owner false⟩
    set { b with ownerParams := b.ownerParams.insert owner p, fresh := b.fresh + 1 }
    pure p

def fieldOf (owner : String) (spec : FieldSpec) (id : FieldId) (ownerParam argsParam : Param) :
    Field :=
  let resolve := spec.expr ownerParam argsParam
  { id := id
    name := spec.name
    owner := owner
    ty := spec.ty
    param := ownerParam
    resolve := resolve
    services := resolve.services
    extracted := if resolve.services.isEmpty then [] else extractFields spec.name resolve ownerParam
    arguments := spec.argumentDefs
    argumentParam := if resolve.mentions argsParam then some argsParam else none
    useArgumentsFrom := none
    roles := spec.roles
    description := spec.description
    extensions := spec.extensions }

/-- Enters a field under the next number. -/
def push (b : SchemaBuilder) (owner : String) (spec : FieldSpec) (p : Param) : SchemaBuilder :=
  let id := b.fields.length
  { b with
    fields := b.fields ++ [⟨fieldOf owner spec id p b.argsParam, spec.inherit⟩]
    index := ((owner, spec.name), id) :: b.index }

def addField (owner : String) (spec : FieldSpec) : Registering FieldId := do
  let b ← get
  if !b.types.contains owner then throw (.unknownType owner (.newField spec.name))
  else if (b.fieldId? owner spec.name).isSome then throw (.duplicateField owner spec.name)
  else
    let p ← ownerParam owner
    modifyGet fun b => (b.fields.length, b.push owner spec p)

def addInput (input : InputObject) : Registering Unit := do
  let b ← get
  if input.oneOf && input.fields.any (fun f => !f.2.nullable) then
    throw (.oneOfNotNullable input.name)
  else if b.inputs.contains input.name then throw (.duplicateType input.name)
  else set { b with inputs := b.inputs.insert input.name input }

def addEnum (enumeration : Enumeration) : Registering Unit := do
  let b ← get
  if b.enums.contains enumeration.name then throw (.duplicateType enumeration.name)
  else set { b with enums := b.enums.insert enumeration.name enumeration }

def addDirective (directive : Directive) : Registering Unit :=
  modify fun b => { b with directives := b.directives.insert directive.name directive }

/-! ## Building -/

/-- Checks that the enumeration or input object inside a type exists. -/
def checkInput (b : SchemaBuilder) (referrer : Referrer) : InputTy → Except SchemaError Unit
  | .scalar _ _ => pure ()
  | .enum name _ => if b.enums.contains name then pure () else throw (.unknownType name referrer)
  | .object name _ => if b.inputs.contains name then pure () else throw (.unknownType name referrer)
  | .list t _ => checkInput b referrer t

def checkType (b : SchemaBuilder) (referrer : Referrer) (name : String) : Except SchemaError Unit :=
  if b.types.contains name then pure () else throw (.unknownType name referrer)

/-- Checks what a field names and looks up the field whose arguments it inherits. -/
def finish (b : SchemaBuilder) (pending : PendingField) : Except SchemaError Field := do
  let field := pending.field
  let referrer := Referrer.field field.owner field.name
  match field.entity with
  | some entity => b.checkType referrer entity
  | none => pure ()
  for a in field.arguments.values do
    b.checkInput referrer a.ty
  match pending.inherit with
  | none => pure field
  | some (owner, name) =>
    match b.fieldId? owner name with
    | some id => pure { field with useArgumentsFrom := some id }
    | none => throw (.unknownField owner name referrer)

/-- Enters a field into the table of its owner, if there is one. -/
def enter (objects : Dict ObjectType) (f : Field) : Dict ObjectType :=
  objects.modify f.owner fun object => { object with fields := object.fields.insert f.name f }

def objects (b : SchemaBuilder) (fields : List Field) : Dict ObjectType :=
  fields.foldl enter (b.types.map fun t => (t.1, ⟨t.1, [], t.2⟩))

def build (b : SchemaBuilder) : Except SchemaError Schema := do
  b.checkType .root b.query
  match b.mutation with
  | some mutation => b.checkType .root mutation
  | none => pure ()
  let fields ← b.fields.mapM b.finish
  for input in b.inputs.values do
    for t in input.fields.values do
      b.checkInput (.input input.name) t
  pure {
    query := b.query
    mutation := b.mutation
    types := b.objects fields
    inputs := b.inputs
    enums := b.enums
    fields := fields
    directives := b.directives
    fresh := b.fresh }

end SchemaBuilder

end FieldPlan
