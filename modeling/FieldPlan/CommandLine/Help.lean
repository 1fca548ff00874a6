import FieldPlan.CommandLine.Command

/-!
# Help pages

* `Help.columns` : lines of two columns, the second one aligned;
* `OptionSpec.usage`, `CommandName.usage`, `Help.programUsage` : how an option, a command and the
  program are written;
* `HelpTopic.page` : the page on a topic;
* `Help.versionLine` : the name of the program and its version.
-/

namespace FieldPlan

def OptionSpec.valueWord (s : OptionSpec) : String :=
  String.ofList (s.name.toList.map fun c => if c = '-' then '_' else c.toUpper)

def OptionSpec.usage (s : OptionSpec) : String :=
  "--" ++ s.name ++ (if s.value == .absent then "" else " <" ++ s.valueWord ++ ">")

namespace Help

def programName : String := "selplan"

def versionLine : String := programName ++ " 0.1.0\n"

def programUsage : String := programName ++ " [OPTIONS] <COMMAND>"

def aboutHelp : String := "Print this message or the help of the given subcommand(s)"

/-- Lines of two columns, the second starting two blanks after the longest entry of the first. -/
def columns (rows : List (String × String)) : List String :=
  let width := (rows.map fun r => r.1.length).foldl max 0
  rows.map fun r => r.1 ++ String.ofList (List.replicate (width + 2 - r.1.length) ' ') ++ r.2

def optionRow (s : OptionSpec) : String × String :=
  let letter := match s.letter with
    | some c => "-" ++ c.toString ++ ", "
    | none => "    "
  ("  " ++ letter ++ s.usage, s.about)

def optionLines (specs : List OptionSpec) : List String :=
  "Options:" :: columns (specs.map optionRow)

def commandLines : List String :=
  "Commands:" :: columns ((CommandName.all.map fun n => ("  " ++ n.word, n.about)) ++
    [("  help", aboutHelp)])

/-- A page from what a topic is about, how it is written and sections. -/
def layout (about usage : String) (sections : List (List String)) : String :=
  let parts := [about, "Usage: " ++ usage] ++ sections.map fun lines => "\n".intercalate lines
  "\n\n".intercalate parts ++ "\n"

end Help

def CommandName.usage (n : CommandName) : String :=
  " ".intercalate ([Help.programName, n.word, "[OPTIONS]"] ++
    (n.options.filter (·.required)).map (·.usage))

def HelpTopic.page : HelpTopic → String
  | .program =>
    Help.layout "Compile field selections into execution plans" Help.programUsage
      [Help.commandLines, Help.optionLines programOptions]
  | .command n => Help.layout n.about n.usage [Help.optionLines n.options]
  | .help =>
    Help.layout Help.aboutHelp (Help.programName ++ " help [COMMAND]...")
      ["Arguments:" :: Help.columns [("  [COMMAND]...", "Print help for the subcommand(s)")]]

end FieldPlan
