import FieldPlan.Proofs.Expr.Source
import FieldPlan.Proofs.Planning.Growth
import FieldPlan.Proofs.Ty
import FieldPlan.Proofs.Wanted.Tree

/-!
# The expressions of what is wanted

How a plan renders what is wanted over a context, the expression of the owner's value, once the plan
has gathered all its bindings.

* `Expr.Chain`, `Expr.Input`, `Expr.Own` : the expression of a path of members, of an argument of a
  service call and of the value of a field itself;
* `Expr.Sorted`, `Reads` : the value of a field sorted by fields of its items, and arranged;
* `Renders`, `RendersAll` : what is wanted, and all that is wanted of a value.
-/

namespace FieldPlan

namespace Expr

/-- The chain of members along a path, over a context. -/
inductive Chain (context : Expr) : List String → Expr → Prop
  | nil : Chain context [] context
  | snoc {path : List String} {e : Expr} (name : String) (t : Ty) :
    Chain context path e → e.ty.Member name t → Chain context (path ++ [name]) (.member e name t)

/-- An argument of a service call; `Record` are the parameters that stand for the record of the
arguments of the field. -/
inductive Input (Record : Param → Prop) (context : Expr) : ServiceArg → Expr → Prop
  | member {path : List String} {e : Expr} :
    Chain context path e → Input Record context (.member path) e
  | argument {p : Param} (name : String) :
    Record p → Input Record context (.argument name) (.member (.param p) name .json)
  | constant (v : Json) (t : Ty) : Input Record context (.constant v) (.constant v t)

/-- The value of a field itself. -/
inductive Own (Record : Param → Prop) (context : Expr) : Resolve → Expr → Prop
  | member {path : List String} {e : Expr} :
    Chain context path e → Own Record context (.member path) e
  | service (name : ServiceName) (method : String) (t : Ty) {args : List ServiceArg}
    {es : List Expr} :
    List.Forall₂ (Input Record context) args es → t.hasRecord = false →
      Own Record context (.service name method args) (.invoke (.service name) method es t)
  | constant (v : Json) (t : Ty) :
    t.hasRecord = false → Own Record context (.constant v) (.constant v t)

/-- The field of a sort key on an item: it is read from the item alone. -/
inductive KeyOwn (x : Param) : Resolve → Expr → Prop
  | member {path : List String} {e : Expr} :
    Chain (.param x) path e → KeyOwn x (.member path) e
  | constant (v : Json) (t : Ty) : KeyOwn x (.constant v) (.constant v t)

/-- The function of a sort key, the first of a list being the main one. -/
def keyFunction (first : Bool) (d : Direction) : Builtin := if first then .orderBy d else .thenBy d

/-- A list sorted by fields of its items. -/
inductive Sorted (config : SchemaConfig) (entity : String) (element : Ty) :
    Bool → List (String × Direction) → Expr → Expr → Prop
  | nil (first : Bool) (list : Expr) : Sorted config entity element first [] list list
  | cons {first : Bool} {name : String} {d : Direction} {order : List (String × Direction)}
    {list key sorted : Expr} {x : Param} {source : Resolve} :
    config.source? entity name = some source → x.ty = element → KeyOwn x source key →
      Sorted config entity element false order
        (.builtin (keyFunction first d) [list, .lambda x key]) sorted →
      Sorted config entity element first ((name, d) :: order) list sorted

end Expr

open Extension.Paging (addSkip addTake)

/-- The value of a field arranged by its arguments. -/
inductive Arranges (config : SchemaConfig) (base : Expr) (a : Arrangement) : Expr → Prop
  | plain : a.order = [] → Arranges config base a (addTake (addSkip base a.skip) a.take)
  | sorted {element : Ty} {entity : String} {list : Expr} :
    a.order ≠ [] → base.ty.element? = some element → element.entityName = some entity →
      Expr.Sorted config entity element true a.order base list →
      Arranges config base a (addTake (addSkip list a.skip) a.take)

/-- A parameter is bound to the record of arguments. -/
def PlanState.Records (final : PlanState) (arguments : Dict Json) (p : Param) : Prop :=
  (p, .value (.obj arguments)) ∈ final.bindings ∧ p.ty = Ty.json.nonNull

/-- The value of a field over a context, as it comes and arranged. -/
structure Reads (config : SchemaConfig) (final : PlanState) (context : Expr) (item : Item)
    (base e : Expr) : Prop where
  own : Expr.Own (final.Records item.arguments) context item.source base
  ty : base.ty = item.ty
  arranged : ∃ a, item.arrangement = some a ∧ Arranges config base a e
  /-- No parameter that the plan binds is bound by a sort key. -/
  apart : ∀ i ∈ e.binders, i ∉ final.boundIds
  covers : final.Covers e
  coherent : e.Coherent

/-- Puts a parameter in place of a base expression, bound or not. -/
def rewrap (final : PlanState) (e : Expr) (p : Param) : Expr → Option Expr :=
  Rule.pick [(e, .param p), (final.bound e, .param p)]

/-- The record of the fields with a parameter in place of a base expression. -/
def rewrapped (final : PlanState) (e : Expr) (p : Param) (fields : List (String × Expr)) :
    List (String × Expr) :=
  fields.map fun field => (field.1, field.2.swap (rewrap final e p))

def guardIf (needed : Bool) (guard build : Expr) : Expr :=
  if needed then .nullGuarded guard build else build

mutual

/-- What is wanted over a context. -/
inductive Renders (config : SchemaConfig) (final : PlanState) : Expr → Wanted → Expr → Prop
  | leaf {context base e : Expr} {item : Item} :
    Reads config final context item base e →
      Renders config final context (.leaf item) (final.bound e)
  | plain {context base e : Expr} {item : Item} {children : List Wanted}
    {fields : List (String × Expr)} :
    Reads config final context item base e → ¬e.Served → RendersAll config final e children fields →
      (Dict.keys fields).Nodup → Renders config final context (.object item children)
        (guardIf e.ty.nullable e (.record item.name fields))
  | wrapped {context base e : Expr} {item : Item} {children : List Wanted}
    {fields : List (String × Expr)} {p : Param} :
    Reads config final context item base e → e.Served → e.Called →
      RendersAll config final e children fields → (Dict.keys fields).Nodup → p.ty = e.ty →
      p.id ∉ final.boundIds → (∀ field ∈ fields, p.id ∉ field.2.ids) →
      (e.Source → ∀ field ∈ fields, ∀ i ∈ field.2.binders, i ∉ e.ids ∧ i ∉ final.boundIds) →
      Renders config final context (.object item children)
        (.letIn p (final.bound e)
          (.nullGuarded (.param p) (.record item.name (rewrapped final e p fields))))
  | items {context base e : Expr} {item : Item} {children : List Wanted}
    {fields : List (String × Expr)} {x : Param} :
    Reads config final context item base e → ¬e.Served → base.ty.element? = some x.ty →
      RendersAll config final (.param x) children fields → (Dict.keys fields).Nodup →
      x.id ∉ final.boundIds →
      Renders config final context (.list item children)
        (guardIf base.ty.nullable base (.select e x (.record item.name fields)))
  | fetched {context base e : Expr} {item : Item} {children : List Wanted}
    {fields : List (String × Expr)} {x p : Param} :
    Reads config final context item base e → e.Served → base.ty.element? = some x.ty →
      RendersAll config final (.param x) children fields → (Dict.keys fields).Nodup →
      x.id ∉ final.boundIds →
      p.ty = e.ty → p.id ∉ final.boundIds →
      Renders config final context (.list item children)
        (if e.ty.nullable then
          .letIn p (final.bound e) (.nullGuarded (.param p)
            (.select (.param p) x (.record item.name fields)))
        else .select (final.bound e) x (.record item.name fields))

/-- All that is wanted over a context, under its names. -/
inductive RendersAll (config : SchemaConfig) (final : PlanState) :
    Expr → List Wanted → List (String × Expr) → Prop
  | nil {context : Expr} : RendersAll config final context [] []
  | cons {context e : Expr} {w : Wanted} {ws : List Wanted} {fields : List (String × Expr)} :
    Renders config final context w e → RendersAll config final context ws fields →
      RendersAll config final context (w :: ws) ((w.name, e) :: fields)

end

end FieldPlan
