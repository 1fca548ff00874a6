import FieldPlan.Expr.Replacement
import FieldPlan.Extension.Basic
import FieldPlan.Json.Text

/-!
# Sorting

* `Extension.sort` : orders a list of entities by fields of the elements, as its argument `sort`
  says: an object of directions by field, or a list of such objects, the keys counting in the order
  given.
-/

namespace FieldPlan

def Direction.ofWord? : String → Option Direction
  | "ASC" | "asc" => some .ascending
  | "DESC" | "desc" => some .descending
  | _ => none

namespace Extension.Sort

/-- A field of the elements and the direction in which it sorts. -/
abbrev Key := String × Direction

def key (member : String × Json) : Except ExtensionError Key :=
  match member.2.toStr?.bind Direction.ofWord? with
  | some d => pure (member.1, d)
  | none =>
    throw (.argument ("Sort direction for '" ++ member.1 ++ "' must be ASC or DESC, got " ++
      member.2.compact))

def entryKeys : Json → Except ExtensionError (List Key)
  | .obj members => members.mapM key
  | v =>
    throw (.argument ("Argument 'sort' expects objects like \x7b\"field\": \"ASC\"\x7d, got " ++
      v.compact))

def keys (default : List Key) (argument : Option Json) : Except ExtensionError (List Key) :=
  match argument with
  | none | some .null => pure default
  | some (.arr entries) => do return (← entries.mapM entryKeys).flatten
  | some v => entryKeys v

/-- The field that a key names: it must be computed from the element alone. -/
def keyField (site : Site) (entity name : String) : Except ExtensionError FieldDef :=
  match site.fieldOf entity name with
  | some f =>
    if !f.hasServices && f.argumentParam.isNone then pure f
    else throw (.argument ("Field '" ++ name ++ "' cannot be used to sort " ++ entity))
  | none => throw (.argument ("Field '" ++ name ++ "' cannot be used to sort " ++ entity))

/-- Sorts a list by a key, after the keys before it. -/
def addKey (site : Site) (element : Ty) (entity : String) (list : Expr) (first : Bool) (k : Key) :
    Hook Expr := do
  let f ← StateT.lift (keyField site entity k.1)
  let item ← (Fresh.param entity.toLower element).lift
  let value ← (f.resolve.replaceParam f.param (.param item)).lift
  let function := if first then Builtin.orderBy k.2 else Builtin.thenBy k.2
  pure (.builtin function [list, .lambda item value])

def addKeys (site : Site) (element : Ty) (entity : String) (list : Expr) (first : Bool) :
    List Key → Hook Expr
  | [] => pure list
  | k :: rest => do
    let list ← addKey site element entity list first k
    addKeys site element entity list false rest

/-- Sorts a base expression, unless the pass that materialized it did. -/
def preSelection (default : List Key) (site : Site) (base : Expr) (item : Option Param) :
    Hook (Expr × Option Param) :=
  if site.materialized then pure (base, item)
  else do
    match ← StateT.lift (keys default (site.arguments.find? "sort")) with
    | [] => pure (base, item)
    | ks =>
      match base.ty.element? with
      | none => throw (.other ("Cannot sort non-list field '" ++ site.field.name ++ "'"))
      | some element =>
        match element.entityName with
        | none => throw (.other ("Cannot sort list of " ++ element.text))
        | some entity =>
          let list ← addKeys site element entity base true ks
          pure (list, item)

end Extension.Sort

/-- Orders a list by fields of its elements, by `default` when the request does not say how. -/
def Extension.sort (default : List (String × Direction)) : Extension where
  name := "sort"
  arguments :=
    [⟨"sort", .scalar .json true, none, some "Sort keys, e.g. [\x7b\"name\": \"ASC\"\x7d]"⟩]
  preSelection := Sort.preSelection default

end FieldPlan
