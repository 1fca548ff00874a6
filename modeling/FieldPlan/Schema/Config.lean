import FieldPlan.Extension.Paging
import FieldPlan.Extension.Sort
import FieldPlan.Json.Decode
import FieldPlan.Json.Reader
import FieldPlan.Schema.Builder

/-!
# Schema descriptions

* `SchemaConfig` : a schema described by data, where types are written as references;
* `SchemaConfig.decode`, `SchemaConfig.read` : from a JSON value and from its text;
* `SchemaConfig.build` : the schema that a description denotes.
-/

namespace FieldPlan

/-! ## Descriptions -/

structure ServiceConfig where
  name : ServiceName
  method : String
  args : List Json
deriving Inhabited

structure ArgumentConfig where
  ty : String
  default : Option Json
  description : Option String
deriving Inhabited

/-- The counts of a paged field. -/
structure PagingConfig where
  defaultTake : Option Nat
  maxTake : Option Nat
deriving Inhabited

/-- A field described in full. -/
structure FieldDetail where
  ty : String
  path : Option String
  service : Option ServiceConfig
  constant : Option Json
  arguments : Dict ArgumentConfig
  useArgumentsFrom : Option String
  sort : Option (Dict Direction)
  paging : Option PagingConfig
  roles : List String
  description : Option String
deriving Inhabited

/-- A field: the reference of its type alone, or a full description. -/
inductive FieldConfig where
  | short (ty : String)
  | full (detail : FieldDetail)
deriving Inhabited

structure TypeConfig where
  description : Option String
  fields : Dict FieldConfig
deriving Inhabited

structure InputConfig where
  oneOf : Bool
  fields : Dict String
deriving Inhabited

structure SchemaConfig where
  query : String
  mutation : Option String
  types : Dict TypeConfig
  inputs : Dict InputConfig
  enums : Dict (List String)
deriving Inhabited

/-! ## Decoding -/

open Decode

def ServiceConfig.decode : Decoder ServiceConfig := fun d => do
  let ms ← record ["name", "method", "args"] true d
  pure {
    name := ← required ms "name" text
    method := ← required ms "method" text
    args := ← optional ms "args" (items value) [] }

def ArgumentConfig.decode : Decoder ArgumentConfig := fun d => do
  let ms ← record ["type", "default", "description"] true d
  pure {
    ty := ← required ms "type" text
    default := ← optional ms "default" (nullable value) none
    description := ← optional ms "description" (nullable text) none }

def PagingConfig.decode : Decoder PagingConfig := fun d => do
  let ms ← record ["default_take", "max_take"] true d
  pure {
    defaultTake := ← optional ms "default_take" (nullable count) none
    maxTake := ← optional ms "max_take" (nullable count) none }

def decodeSort : Decoder (Dict Direction) := fun d => do
  let ms ← record ["default"] true d
  optional ms "default" (table (choice [("ASC", .ascending), ("DESC", .descending)])) []

def FieldDetail.decode : Decoder FieldDetail := fun d => do
  let ms ← record ["type", "path", "service", "constant", "arguments", "use_arguments_from", "sort",
    "paging", "roles", "description"] true d
  pure {
    ty := ← required ms "type" text
    path := ← optional ms "path" (nullable text) none
    service := ← optional ms "service" (nullable ServiceConfig.decode) none
    constant := ← optional ms "constant" (nullable value) none
    arguments := ← optional ms "arguments" (table ArgumentConfig.decode) []
    useArgumentsFrom := ← optional ms "use_arguments_from" (nullable text) none
    sort := ← optional ms "sort" (nullable decodeSort) none
    paging := ← optional ms "paging" (nullable PagingConfig.decode) none
    roles := ← optional ms "roles" (items text) []
    description := ← optional ms "description" (nullable text) none }

def FieldConfig.decode : Decoder FieldConfig
  | .scalar (.str ty) => some (.short ty)
  | d => (FieldDetail.decode d).map .full

def TypeConfig.decode : Decoder TypeConfig := fun d => do
  let ms ← record ["description", "fields"] true d
  pure {
    description := ← optional ms "description" (nullable text) none
    fields := ← optional ms "fields" (table FieldConfig.decode) [] }

def InputConfig.decode : Decoder InputConfig := fun d => do
  let ms ← record ["one_of", "fields"] true d
  pure {
    oneOf := ← optional ms "one_of" flag false
    fields := ← optional ms "fields" (table text) [] }

def SchemaConfig.decode : Decoder SchemaConfig := fun d => do
  let ms ← record ["query", "mutation", "types", "inputs", "enums"] true d
  pure {
    query := ← optional ms "query" text "Query"
    mutation := ← optional ms "mutation" (nullable text) none
    types := ← optional ms "types" (table TypeConfig.decode) []
    inputs := ← optional ms "inputs" (table InputConfig.decode) []
    enums := ← optional ms "enums" (table (items text)) [] }

def SchemaConfig.read (text : String) : Option SchemaConfig := (Document.read text).bind decode

/-! ## Building -/

def readTy (reference : String) : Except SchemaError Ty :=
  (Ty.ofReference reference).mapError .invalidTypeRef

def segments (text : String) : List String := (text.toList.splitOn '.').map String.ofList

/-- The text before the first point and the text after it. -/
def splitPoint? (text : String) : Option (String × String) :=
  match segments text with
  | owner :: name :: rest => some (owner, ".".intercalate (name :: rest))
  | _ => none

/-- An argument of a service call: `$args.` starts the name of an argument, any other text is a path
of members and any other value stands for itself. -/
def ServiceArg.ofJson : Json → ServiceArg
  | .str text =>
    let mark := "$args.".toList
    if mark.isPrefixOf text.toList then .argument (String.ofList (text.toList.drop mark.length))
    else .member (segments text)
  | v => .constant v

namespace FieldDetail

def resolve (d : FieldDetail) (owner name : String) : Except SchemaError Resolve :=
  match d.path, d.service, d.constant with
  | none, none, none => pure (.member [name])
  | some path, none, none =>
    if (segments path).contains "" then throw (.invalidField owner name .emptyPathSegment)
    else pure (.member (segments path))
  | none, some s, none => pure (.service s.name s.method (s.args.map .ofJson))
  | none, none, some v => pure (.constant v)
  | _, _, _ => throw (.invalidField owner name .severalSources)

/-- The field whose arguments are inherited. -/
def inheritFrom (d : FieldDetail) (owner name : String) :
    Except SchemaError (Option (String × String)) :=
  match d.useArgumentsFrom with
  | none => pure none
  | some source =>
    match splitPoint? source with
    | some s => pure (some s)
    | none => throw (.invalidField owner name .badArgumentSource)

/-- The extensions of a field, sorting before paging. -/
def extensions (d : FieldDetail) : List Extension :=
  (d.sort.map Extension.sort).toList ++
    (d.paging.map fun p => Extension.paging p.defaultTake p.maxTake).toList

end FieldDetail

namespace SchemaConfig

def readInputTy (c : SchemaConfig) (reference : String) : Except SchemaError InputTy :=
  (InputTy.ofReference c.enums.contains reference).mapError .invalidTypeRef

def argumentDef (c : SchemaConfig) (a : String × ArgumentConfig) :
    Except SchemaError ArgumentDef := do
  let t ← c.readInputTy a.2.ty
  pure ⟨a.1, t, a.2.default, a.2.description⟩

def fieldSpec (c : SchemaConfig) (owner name : String) :
    FieldConfig → Except SchemaError FieldSpec
  | .short ty => do
    let t ← readTy ty
    pure (.ofMember name t)
  | .full d => do
    let t ← readTy d.ty
    let resolve ← d.resolve owner name
    let arguments ← d.arguments.mapM c.argumentDef
    let source ← d.inheritFrom owner name
    pure {
      name := name
      ty := t
      resolve := resolve
      arguments := arguments
      inherit := source
      extensions := d.extensions
      roles := d.roles
      description := d.description }

def addEnums (c : SchemaConfig) : Registering Unit :=
  c.enums.forM fun e => SchemaBuilder.addEnum ⟨e.1, e.2⟩

def addInputs (c : SchemaConfig) : Registering Unit :=
  c.inputs.forM fun input => do
    let fields ← (input.2.fields.mapM fun f => do
      let t ← c.readInputTy f.2
      pure (f.1, t) : Except SchemaError (Dict InputTy))
    SchemaBuilder.addInput ⟨input.1, fields, input.2.oneOf⟩

def addTypes (c : SchemaConfig) : Registering Unit :=
  c.types.forM fun t => SchemaBuilder.addType t.1 t.2.description

def addFields (c : SchemaConfig) (t : String × TypeConfig) : Registering Unit :=
  t.2.fields.forM fun f => do
    let spec ← c.fieldSpec t.1 f.1 f.2
    let _ ← SchemaBuilder.addField t.1 spec

def register (c : SchemaConfig) : Registering Unit := do
  c.addEnums
  c.addInputs
  c.addTypes
  c.types.forM c.addFields

def build (c : SchemaConfig) : Except SchemaError Schema :=
  match c.register.run (.new c.query c.mutation 1) with
  | (.ok (), b) => b.build
  | (.error e, _) => throw e

end SchemaConfig

end FieldPlan
