import FieldPlan.Extension.Basic
import FieldPlan.Json.Text

/-!
# Paging

* `Extension.paging` : slices a list by its arguments `skip` and `take`; without `take` the default
  counts, then the maximum, which `take` must not exceed.
-/

namespace FieldPlan

namespace Extension.Paging

def countArgument (site : Site) (name : String) : Except ExtensionError (Option Nat) :=
  match site.arguments.find? name with
  | none | some .null => pure none
  | some v =>
    match v.toNat? with
    | some n => pure (some n)
    | none =>
      throw (.argument ("Argument '" ++ name ++ "' must be a non-negative integer, got " ++
        v.compact))

def countExpr (n : Nat) : Expr := .constant (.int n) .count

/-- Refuses to take more than the maximum. -/
def checkTake (site : Site) (take max : Option Nat) : Except ExtensionError Unit :=
  match take, max with
  | some take, some max =>
    if max < take then
      throw (.argument ("Requested take " ++ toString take ++ " exceeds the maximum of " ++
        toString max ++ " for field '" ++ site.field.name ++ "'"))
    else pure ()
  | _, _ => pure ()

def addSkip (list : Expr) : Option Nat → Expr
  | some (n + 1) => .builtin .skip [list, countExpr (n + 1)]
  | _ => list

def addTake (list : Expr) : Option Nat → Expr
  | some n => .builtin .take [list, countExpr n]
  | none => list

/-- Slices a base expression, unless the pass that materialized it did. -/
def preSelection (defaultTake maxTake : Option Nat) (site : Site) (base : Expr)
    (item : Option Param) : Hook (Expr × Option Param) :=
  if site.materialized then pure (base, item)
  else StateT.lift do
    let skip ← countArgument site "skip"
    let given ← countArgument site "take"
    let take := given <|> defaultTake <|> maxTake
    checkTake site take maxTake
    pure (addTake (addSkip base skip) take, item)

end Extension.Paging

/-- Slices a list by `skip` and `take`. -/
def Extension.paging (defaultTake maxTake : Option Nat) : Extension where
  name := "offset_paging"
  arguments :=
    [⟨"skip", .scalar .int true, none, some "Number of items to skip"⟩,
      ⟨"take", .scalar .int true, none, some "Maximum number of items to return"⟩]
  preSelection := Paging.preSelection defaultTake maxTake

end FieldPlan
