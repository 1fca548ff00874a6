import FieldPlan.Expr.Basic
import FieldPlan.Json.Text

/-!
# The text of expressions

* `Expr.text` : an expression on one line;
* `Expr.pretty` : an expression with record constructions and bindings over indented lines.
-/

namespace FieldPlan.Expr

/-! ## One line -/

mutual

def text : Expr → String
  | .param p => p.name
  | .constant v _ => v.compact
  | .null _ => "null"
  | .service s => "@" ++ s
  | .member target name _ => text target ++ "." ++ name
  | .condition test a b => "(" ++ text test ++ " ? " ++ text a ++ " : " ++ text b ++ ")"
  | .equal a b => text a ++ " == " ++ text b
  | .builtin f args => f.name ++ "(" ++ ", ".intercalate (texts args) ++ ")"
  | .invoke r method args _ =>
    text r ++ "." ++ method ++ "(" ++ ", ".intercalate (texts args) ++ ")"
  | .lambda p body => "|" ++ p.name ++ "| " ++ text body
  | .record name fields =>
    "new " ++ name ++ " \x7b" ++ ",".intercalate (fieldTexts fields) ++ " \x7d"
  | .select source p body => text source ++ ".select(|" ++ p.name ++ "| " ++ text body ++ ")"
  | .letIn p value body => "let " ++ p.name ++ " = " ++ text value ++ " in " ++ text body

def texts : List Expr → List String
  | [] => []
  | e :: es => text e :: texts es

def fieldTexts : List (String × Expr) → List String
  | [] => []
  | (name, e) :: rest => (" " ++ name ++ ": " ++ text e) :: fieldTexts rest

end

/-! ## Indented lines -/

/-- The blanks before a line at a depth. -/
def indent (depth : Nat) : String := String.ofList (List.replicate (2 * depth) ' ')

mutual

/-- An expression over lines, at a depth. -/
def prettyAt (depth : Nat) : Expr → String
  | .record name fields =>
    "new " ++ name ++ " \x7b\n" ++ prettyFields (depth + 1) fields ++ indent depth ++ "\x7d"
  | .letIn p value body =>
    "let " ++ p.name ++ " = " ++ text value ++ " in\n" ++ indent depth ++ prettyAt depth body
  | .condition test a b => text test ++ " ? " ++ prettyAt depth a ++ " : " ++ prettyAt depth b
  | .select source p body =>
    text source ++ ".select(|" ++ p.name ++ "| " ++ prettyAt depth body ++ ")"
  | e => text e

/-- Named expressions on lines of their own, at a depth. -/
def prettyFields (depth : Nat) : List (String × Expr) → String
  | [] => ""
  | (name, e) :: rest =>
    indent depth ++ name ++ ": " ++ prettyAt depth e ++ "\n" ++ prettyFields depth rest

end

/-- An expression over lines. -/
def pretty (e : Expr) : String := prettyAt 0 e

end FieldPlan.Expr
