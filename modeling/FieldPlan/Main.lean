import FieldPlan.CommandLine.Report

/-!
# The command line

* `main` : reads the files that the command names, writes its report and returns its exit code.
-/

namespace FieldPlan

def readText (path : String) : IO (Option String) := do
  try
    let text ← IO.FS.readFile path
    pure (some text)
  catch _ => pure none

def readTexts (paths : List String) : IO Files := do
  let texts ← paths.mapM fun path => do
    let text ← readText path
    pure (path, text)
  pure fun path => ((texts.find? fun e => e.1 == path).bind (·.2))

end FieldPlan

/-- Runs the command that the words denote. -/
def main (words : List String) : IO UInt32 := do
  let paths := (FieldPlan.Invocation.parse words).elim [] (·.files)
  let files ← FieldPlan.readTexts paths
  let r := FieldPlan.report files words
  IO.print r.stdout
  IO.eprint r.stderr
  pure r.code.toUInt32
