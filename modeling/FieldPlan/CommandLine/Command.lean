import FieldPlan.CommandLine.Given

/-!
# Commands

* `Command` : what is done: to check a schema, to plan a request, or to plan and execute it;
* `CommandName` : the names of the commands and the options that each takes;
* `Invocation` : what the command line asks for: a command, a help page or the version;
* `Invocation.parse` : what words ask for, `none` when they are misused;
* `Invocation.files` : the files that are read for it.
-/

namespace FieldPlan

structure PlanInput where
  schema : String
  request : String
  assignment : Option String
  options : Option String
  singlePass : Bool
  maxDepth : Option Nat
deriving Repr, Inhabited

def PlanInput.files (i : PlanInput) : List String :=
  [i.schema, i.request] ++ i.assignment.toList ++ i.options.toList

inductive Command where
  | check (schema : String)
  | plan (input : PlanInput) (format : Format)
  | run (input : PlanInput) (data : String) (services : Option String)
deriving Repr, Inhabited

def Command.files : Command → List String
  | .check schema => [schema]
  | .plan input _ => input.files
  | .run input data services => input.files ++ [data] ++ services.toList

/-! ## Options of commands -/

inductive CommandName where
  | check
  | plan
  | run
deriving DecidableEq, Repr, Inhabited

/-- A wish for a report of what is done; it may stand before the command and after it. -/
def verboseOption : OptionSpec :=
  { name := "verbose", letter := some 'v'
    about := "Log compiler decisions to stderr (`RUST_LOG` takes precedence)" }

def helpOption : OptionSpec :=
  { name := "help", letter := some 'h', final := true, about := "Print help" }

def versionOption : OptionSpec :=
  { name := "version", letter := some 'V', final := true, about := "Print version" }

def programOptions : List OptionSpec := [verboseOption, helpOption, versionOption]

def schemaOption : OptionSpec :=
  { name := "schema", value := .file, required := true, about := "Schema config (JSON)" }

/-- The options that say what is planned, the schema apart. -/
def planOptions : List OptionSpec :=
  [{ name := "request", value := .file, required := true, about := "Selection request (JSON)" },
    { name := "variables", value := .file, about := "Variable values (JSON object)" },
    { name := "options", value := .file, about := "Compile options (JSON)" },
    { name := "single-pass"
      about := "Compile service-backed fields in the same pass as everything else" },
    { name := "max-depth", value := .count, about := "Override the maximum selection depth" }]

namespace CommandName

def all : List CommandName := [.check, .plan, .run]

def word : CommandName → String
  | .check => "check"
  | .plan => "compile"
  | .run => "run"

def ofWord? (w : String) : Option CommandName := all.find? fun n => n.word == w

def about : CommandName → String
  | .check => "Validate a schema config and list its types"
  | .plan => "Compile a request and print the shape and service passes"
  | .run => "Compile a request and execute it against a data file"

def ownOptions : CommandName → List OptionSpec
  | .check => []
  | .plan =>
    planOptions ++
      [{ name := "format", value := .format
         about := "[default: text] [possible values: text, json]" }]
  | .run =>
    planOptions ++
      [{ name := "data", value := .file, required := true
         about := "Root data the query type reads from (JSON)" },
        { name := "services", value := .file, about := "Canned service responses (JSON)" }]

def options (n : CommandName) : List OptionSpec :=
  [schemaOption, verboseOption] ++ n.ownOptions ++ [helpOption]

end CommandName

def Given.planInput? (given : Given) : Option PlanInput := do
  let schema ← given.value? "schema"
  let request ← given.value? "request"
  pure {
    schema := schema
    request := request
    assignment := given.value? "variables"
    options := given.value? "options"
    singlePass := given.has "single-pass"
    maxDepth := (given.value? "max-depth").bind count? }

def Given.command? (given : Given) : CommandName → Option Command
  | .check => (given.value? "schema").map .check
  | .plan => do
    let input ← given.planInput?
    pure (.plan input (((given.value? "format").bind Format.ofWord?).getD .text))
  | .run => do
    let input ← given.planInput?
    let data ← given.value? "data"
    pure (.run input data (given.value? "services"))

/-! ## What the words ask for -/

/-- What a help page is about. -/
inductive HelpTopic where
  | program
  | command (name : CommandName)
  | help
deriving DecidableEq, Repr, Inhabited

def HelpTopic.ofWords? : List String → Option HelpTopic
  | [] => some .program
  | ["help"] => some .help
  | [word] => (CommandName.ofWord? word).map .command
  | _ => none

/-- What the command line asks for. -/
inductive Invocation where
  | command (c : Command)
  | help (topic : HelpTopic)
  | version
deriving Repr, Inhabited

namespace Invocation

/-- What the words after the name of a command ask for; two dashes may close the options. -/
def parseCommand (name : CommandName) (words : List String) : Option Invocation := do
  let (given, rest) ← Given.read name.options words []
  if given.has "help" then pure (.help (.command name))
  else if rest.isEmpty || rest == ["--"] then (given.command? name).map .command
  else none

def parse (words : List String) : Option Invocation := do
  let (given, rest) ← Given.read programOptions words []
  if given.has "help" then pure (.help .program)
  else if given.has "version" then pure .version
  else
    match rest with
    | [] => none
    | "help" :: topics => (HelpTopic.ofWords? topics).map .help
    | word :: words => (CommandName.ofWord? word).bind fun name => parseCommand name words

def files : Invocation → List String
  | .command c => c.files
  | _ => []

end Invocation

end FieldPlan
