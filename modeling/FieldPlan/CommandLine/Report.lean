import FieldPlan.CommandLine.Help
import FieldPlan.Fixture
import FieldPlan.Plan.Eval
import FieldPlan.Plan.Serial
import FieldPlan.Schema.Config
import FieldPlan.Selection.Request

/-!
# Running commands

* `Report` : what a command writes and its exit code;
* `Command.report` : the report of a command, given the texts of files;
* `report` : the report of the words of a command line, the code 2 meaning that they are misused.
-/

namespace FieldPlan

/-- What a command writes, and its exit code. -/
structure Report where
  stdout : String
  stderr : String
  code : Nat
deriving Inhabited

abbrev Files := String → Option String

namespace Command

/-! ## Loading -/

/-- Reads a file: `what` says what it holds, and `decode` reads its text. -/
def load {α : Type} (files : Files) (what path : String) (decode : String → Option α) :
    Except String α :=
  match files path with
  | none => throw ("failed to read " ++ what ++ " " ++ path)
  | some text =>
    match decode text with
    | some a => pure a
    | none => throw ("invalid " ++ what ++ " " ++ path)

def loadSchema (files : Files) (path : String) : Except String Schema := do
  let config ← load files "schema" path SchemaConfig.read
  config.build.mapError fun e => "schema " ++ path ++ ": " ++ e.message

end Command

def PlanOptions.decode : Decode.Decoder PlanOptions := fun d => do
  let ms ← Decode.record ["execute_service_fields_separately", "max_depth"] false d
  pure {
    separately := ← Decode.optional ms "execute_service_fields_separately" Decode.flag true
    maxDepth := ← Decode.optional ms "max_depth" Decode.count 64 }

namespace Command

/-- The options of a plan, those of the command line going before those of the file. -/
def loadOptions (files : Files) (i : PlanInput) : Except String PlanOptions := do
  let o ← match i.options with
    | some path =>
      load files "options" path fun text => (Document.read text).bind PlanOptions.decode
    | none => pure {}
  pure ⟨o.separately && !i.singlePass, i.maxDepth.getD o.maxDepth⟩

def loadAssignment (files : Files) (i : PlanInput) : Except String (Dict Json) :=
  match i.assignment with
  | some path =>
    load files "variables" path fun text => (Document.read text).bind (Decode.table Decode.value)
  | none => pure []

def loadPlan (files : Files) (i : PlanInput) (schema : Schema)
    (registered : Option (ServiceName → Bool)) : Except String PlannedOperation := do
  let request ← load files "request" i.request Request.read
  let tree ← (request.build schema).mapError fun e => "request " ++ i.request ++ ": " ++ e.text
  let options ← loadOptions files i
  let assignment ← loadAssignment files i
  (Planner.plan ⟨schema, tree, assignment, .all, registered, options⟩).mapError fun e =>
    "compile failed: " ++ e.text

/-! ## Texts -/

def unlines (lines : List String) : String := String.join (lines.map (· ++ "\n"))

/-- Drops a carriage return at the end of a line. -/
def dropReturn (line : String) : String :=
  if line.toList.getLast? = some '\r' then String.ofList line.toList.dropLast else line

/-- The lines of a text: a line break at the end starts none. -/
def lines (text : String) : List String :=
  let parts := text.splitOn "\n"
  let complete := parts.dropLast.map dropReturn
  match parts.getLast? with
  | none | some "" => complete
  | some last => complete ++ [last]

def schemaLines (path : String) (s : Schema) : List String :=
  ["Schema " ++ path, "  query type: " ++ s.query] ++
    (s.mutation.map fun m => "  mutation type: " ++ m).toList ++
    s.types.values.flatMap fun object =>
      ("  " ++ object.name) :: object.fields.values.map fun f =>
        "    " ++ f.name ++ ": " ++ f.ty.text ++ (if f.hasServices then " (service)" else "")

def planLines (label : String) (p : Plan) : List String :=
  ["  " ++ label ++ " (" ++ p.root.name ++ ": " ++ p.root.ty.text ++ ")"] ++
    p.bindings.map (fun b => "    bind " ++ b.1.name ++ " = " ++ b.2.toJson.compact) ++
    (lines p.body.pretty).map ("    " ++ ·)

def fieldLines (f : PlannedField) : List String :=
  ["Field " ++ f.name] ++ f.shapePass.elim [] (planLines "shape pass") ++
    f.servicePass.elim [] (planLines "service pass")

def planText (o : PlannedOperation) : Format → String
  | .text => unlines (o.fields.flatMap fieldLines)
  | .json => o.toJson.pretty ++ "\n"

def errorLines (errors : List FieldError) : List String :=
  errors.map fun e => "error [" ++ e.field ++ "] " ++ e.text

def resultJson (result : Json) (errors : List FieldError) : Json :=
  .obj (("data", result) ::
    if errors.isEmpty then [] else [("errors", .arr (errors.map (·.toJson)))])

/-! ## Commands -/

def failure (message : String) : String := "Error: " ++ message ++ "\n"

def reportCheck (files : Files) (path : String) : Except String Report := do
  let s ← loadSchema files path
  pure ⟨unlines (schemaLines path s), "", 0⟩

/-- Plans a request; a root field that cannot be planned makes the command fail. -/
def reportPlan (files : Files) (i : PlanInput) (format : Format) : Except String Report := do
  let s ← loadSchema files i.schema
  let o ← loadPlan files i s none
  let stdout := planText o format
  let stderr := unlines (errorLines o.errors)
  if o.errors.isEmpty then pure ⟨stdout, stderr, 0⟩
  else
    let summary := toString o.errors.length ++ " root field(s) failed to compile"
    pure ⟨stdout, stderr ++ failure summary, 1⟩

def loadServices (files : Files) : Option String → Except String Fixture
  | some path => load files "services" path Fixture.read
  | none => pure []

def reportRun (files : Files) (i : PlanInput) (data : String) (services : Option String) :
    Except String Report := do
  let s ← loadSchema files i.schema
  let fixture ← loadServices files services
  let o ← loadPlan files i s (some fixture.contains)
  let input ← load files "data" data Json.read
  match (runFields (fixture.services (σ := Unit)) o.fields input).run () with
  | (.ok result, _) => pure ⟨(resultJson result o.errors).pretty ++ "\n", "", 0⟩
  | (.error e, _) => throw ("execution failed: " ++ e.message)

def report (files : Files) (c : Command) : Report :=
  let outcome := match c with
    | .check schema => reportCheck files schema
    | .plan input format => reportPlan files input format
    | .run input data services => reportRun files input data services
  match outcome with
  | .ok r => r
  | .error message => ⟨"", failure message, 1⟩

end Command

def report (files : Files) (words : List String) : Report :=
  match Invocation.parse words with
  | some (.command c) => c.report files
  | some (.help topic) => ⟨topic.page, "", 0⟩
  | some .version => ⟨Help.versionLine, "", 0⟩
  | none => ⟨"", "Usage: " ++ Help.programUsage ++ "\n", 2⟩

end FieldPlan
