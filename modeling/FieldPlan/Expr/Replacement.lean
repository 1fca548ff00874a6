import FieldPlan.Expr.Fresh

/-!
# Replacing parts of expressions

Replacement keeps static types coherent: an access to a member of a record takes the member's type,
and a binder whose value changed its type becomes a fresh parameter of the new type. The traversal
is written once, over the function that carries out such a change of binder in a finished body; that
function is the traversal itself, one level of binders further in, and `Expr.size` levels suffice.

* `Rule` : what is replaced, before (`pre`) or after (`post`) the parts were visited;
* `Expr.replaceBy` : one traversal by a rule, and whether the rule hit anywhere;
* `Expr.replaceAll`, `Expr.replace`, `Expr.replaceParam` : by equality, the first pair that matches;
* `Expr.replaceByType` : the minimal parts of a type that mention no parameter bound around them;
* `Expr.replaceParamsByType` : the free parameters of a type.
-/

namespace FieldPlan

/-- A rule of replacement; it is given the parameters bound around the expression. -/
structure Rule where
  /-- Tried before the parts are visited; a hit ends the traversal there. -/
  pre : Expr → List Param → Option Expr
  /-- Tried after the parts were visited, if the rule hit none of them. -/
  post : Expr → List Param → Option Expr

namespace Rule

/-- Replaces the expressions equal to the first component of a pair by the second. -/
def identity (pairs : List (Expr × Expr)) : Rule where
  pre e _ := (pairs.find? fun pair => pair.1 == e).map (·.2)
  post _ _ := none

def isLiteral : Expr → Bool
  | .null _ | .constant _ _ => true
  | _ => false

/-- Replaces the minimal expressions of the shape of `target`; an occurrence of the replacement
counts as replaced, so that nothing around it is minimal. -/
def byType (target : Ty) (replacement : Expr) : Rule where
  pre _ _ := none
  post e bound :=
    if e == replacement then some e
    else if isLiteral e then none
    else if !e.ty.sameShape target then none
    else if bound.any e.mentions then none
    else some replacement

/-- Replaces the free parameters of the shape of `target`. -/
def paramsByType (target : Ty) (replacement : Expr) : Rule where
  pre e bound :=
    match e with
    | .param p =>
      if !(e == replacement) && p.ty.sameShape target && !bound.any (·.id == p.id) then
        some replacement
      else none
    | _ => none
  post _ _ := none

/-- Applies a rule around the visit of the parts of `e`. -/
def around (rule : Rule) (bound : List Param) (e : Expr) (parts : Fresh (Expr × Bool)) :
    Fresh (Expr × Bool) :=
  match rule.pre e bound with
  | some replacement => pure (replacement, true)
  | none => do
    let (rebuilt, hit) ← parts
    if hit then pure (rebuilt, true)
    else
      match rule.post e bound with
      | some replacement => pure (replacement, true)
      | none => pure (rebuilt, false)

end Rule

namespace Expr

/-! ## Traversal -/

/-- Gives a binder of a finished body the type of its value: a new type needs a fresh parameter. -/
def rebind (rename : Param → Param → Expr → Fresh Expr) (p : Param) (t : Option Ty) (body : Expr) :
    Fresh (Param × Expr) :=
  match t with
  | none => pure (p, body)
  | some t =>
    if t = p.ty then pure (p, body)
    else do
      let q ← Fresh.param p.name t
      let body ← rename p q body
      pure (q, body)

/-- Gives the parameter of a sort key the type of the elements of the list that is sorted. -/
def rebindKey (rename : Param → Param → Expr → Fresh Expr) (function : Builtin) (args : List Expr) :
    Fresh (List Expr) :=
  match args with
  | [list, .lambda p body] =>
    if function.sorts then do
      let (p, body) ← rebind rename p list.ty.element? body
      pure [list, .lambda p body]
    else pure args
  | _ => pure args

mutual

/-- One traversal by a rule, given how a binder is changed in a finished body. -/
def replaceWith (rename : Param → Param → Expr → Fresh Expr) (rule : Rule) (bound : List Param) :
    Expr → Fresh (Expr × Bool)
  | .member target name t => rule.around bound (.member target name t) do
    let (target, hit) ← replaceWith rename rule bound target
    pure (.member target name ((target.ty.member? name).getD t), hit)
  | .condition test a b => rule.around bound (.condition test a b) do
    let (test, hit₁) ← replaceWith rename rule bound test
    let (a, hit₂) ← replaceWith rename rule bound a
    let (b, hit₃) ← replaceWith rename rule bound b
    pure (.condition test a b, hit₁ || hit₂ || hit₃)
  | .equal a b => rule.around bound (.equal a b) do
    let (a, hit₁) ← replaceWith rename rule bound a
    let (b, hit₂) ← replaceWith rename rule bound b
    pure (.equal a b, hit₁ || hit₂)
  | .builtin function args => rule.around bound (.builtin function args) do
    let (args, hit) ← replaceList rename rule bound args
    let args ← rebindKey rename function args
    pure (.builtin function args, hit)
  | .invoke receiver method args t => rule.around bound (.invoke receiver method args t) do
    let (receiver, hit₁) ← replaceWith rename rule bound receiver
    let (args, hit₂) ← replaceList rename rule bound args
    pure (.invoke receiver method args t, hit₁ || hit₂)
  | .lambda p body => rule.around bound (.lambda p body) do
    let (body, hit) ← replaceWith rename rule (p :: bound) body
    pure (.lambda p body, hit)
  | .record name fields => rule.around bound (.record name fields) do
    let (fields, hit) ← replaceFields rename rule bound fields
    pure (.record name fields, hit)
  | .select source p body => rule.around bound (.select source p body) do
    let (source, hit₁) ← replaceWith rename rule bound source
    let (body, hit₂) ← replaceWith rename rule (p :: bound) body
    let (p, body) ← rebind rename p source.ty.element? body
    pure (.select source p body, hit₁ || hit₂)
  | .letIn p value body => rule.around bound (.letIn p value body) do
    let (value, hit₁) ← replaceWith rename rule bound value
    let (body, hit₂) ← replaceWith rename rule (p :: bound) body
    let (p, body) ← rebind rename p (some value.ty) body
    pure (.letIn p value body, hit₁ || hit₂)
  | e => rule.around bound e (pure (e, false))

def replaceList (rename : Param → Param → Expr → Fresh Expr) (rule : Rule) (bound : List Param) :
    List Expr → Fresh (List Expr × Bool)
  | [] => pure ([], false)
  | e :: es => do
    let (e, hit₁) ← replaceWith rename rule bound e
    let (es, hit₂) ← replaceList rename rule bound es
    pure (e :: es, hit₁ || hit₂)

/-- One traversal of named expressions. -/
def replaceFields (rename : Param → Param → Expr → Fresh Expr) (rule : Rule) (bound : List Param) :
    List (String × Expr) → Fresh (List (String × Expr) × Bool)
  | [] => pure ([], false)
  | (name, e) :: fields => do
    let (e, hit₁) ← replaceWith rename rule bound e
    let (fields, hit₂) ← replaceFields rename rule bound fields
    pure ((name, e) :: fields, hit₁ || hit₂)

end

/-- Renames a parameter, changing binders up to `n` levels deep. -/
def renameTo : Nat → Param → Param → Expr → Fresh Expr
  | 0, _, _, e => pure e
  | n + 1, p, q, e => do
    let (e, _) ← replaceWith (renameTo n) (.identity [(.param p, .param q)]) [] e
    pure e

def rename (p q : Param) (e : Expr) : Fresh Expr := renameTo e.size p q e

/-- One traversal by a rule, and whether it hit. -/
def replaceBy (rule : Rule) (e : Expr) : Fresh (Expr × Bool) := replaceWith rename rule [] e

/-! ## Replacement -/

/-- Replaces by equality, the first matching pair winning at each place. -/
def replaceAll (e : Expr) (pairs : List (Expr × Expr)) : Fresh Expr :=
  if pairs.isEmpty then pure e
  else do
    let (e, _) ← e.replaceBy (.identity pairs)
    pure e

/-- Replaces the expressions equal to `target`. -/
def replace (e target replacement : Expr) : Fresh Expr := e.replaceAll [(target, replacement)]

def replaceParam (e : Expr) (p : Param) (replacement : Expr) : Fresh Expr :=
  e.replace (.param p) replacement

/-- Replaces the minimal parts of the shape of `target`. -/
def replaceByType (e : Expr) (target : Ty) (replacement : Expr) : Fresh Expr := do
  let (e, _) ← e.replaceBy (.byType target replacement)
  pure e

/-- Replaces the free parameters of the shape of `target`. -/
def replaceParamsByType (e : Expr) (target : Ty) (replacement : Expr) : Fresh Expr := do
  let (e, _) ← e.replaceBy (.paramsByType target replacement)
  pure e

end Expr

end FieldPlan
