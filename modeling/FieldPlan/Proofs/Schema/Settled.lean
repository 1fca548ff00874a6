import FieldPlan.Extension.Paging
import FieldPlan.Extension.Sort
import FieldPlan.Proofs.Expr.Redrawing
import FieldPlan.Proofs.Mirror
import FieldPlan.Proofs.Schema.Parts

/-!
# Schemas under new numbers

* `Field.Settled` : what a field is made of stays as it is; `Described.settled` : this is so where the
  numbers of a schema stay;
* `Directive.conditional_renumber` : the directives of described schemas keep the same expressions;
* `Extension.paging_renumbered`, `Extension.sort_renumbered` : the extensions of described fields give
  under new numbers what they gave.
-/

namespace FieldPlan

open Expr

variable {low : Nat} {ρ : Renumbering low}

/-! ## Fields -/

/-- What a field is made of is the same under new numbers. -/
structure FieldDef.Settled (ρ : Nat → Nat) (f : FieldDef) : Prop where
  param : f.param.renumber ρ = f.param
  argumentParam : ∀ p, f.argumentParam = some p → p.renumber ρ = p
  resolve : f.resolve.renumber ρ = f.resolve
  extracted : ∀ part ∈ f.extracted, part.expr.renumber ρ = part.expr

theorem memberChain_renumber (ρ : Nat → Nat) (root : Expr) (t : Ty) (path : List String) :
    (memberChain root t path).renumber ρ = memberChain (root.renumber ρ) t path := by
  induction path generalizing root with
  | nil => rfl
  | cons name rest ih =>
    cases rest with
    | nil => rfl
    | cons next rest => exact ih (.member root name .json)

theorem ServiceArg.expr_renumber (ρ : Nat → Nat) (owner arguments : Param) (a : ServiceArg) :
    (a.expr owner arguments).renumber ρ = a.expr (owner.renumber ρ) (arguments.renumber ρ) := by
  cases a with
  | member path => exact memberChain_renumber ρ _ .json path
  | argument name => rfl
  | constant v => rfl

theorem Resolve.exprOver_renumber (ρ : Nat → Nat) {source : Resolve} (plain : source.Plain) (t : Ty)
    (owner arguments : Param) : (source.exprOver t owner arguments).renumber ρ =
      source.exprOver t (owner.renumber ρ) (arguments.renumber ρ) := by
  cases source with
  | member path => exact memberChain_renumber ρ _ t path
  | service name method args =>
    simp [exprOver, renumber, Function.comp_def, ServiceArg.expr_renumber]
  | constant v => rfl
  | expr e => exact plain.elim

/-- A described field stays as it is where the numbers of its schema stay. -/
theorem Described.settled {config : SchemaConfig} {f : Field} (h : Described config low f)
    (ρ : Renumbering low) : f.Settled ρ := by
  obtain ⟨fc, source, traits⟩ := h.traits
  have owner : f.param.renumber ρ = f.param := Param.renumber_self ρ traits.below
  have arguments : Param.arguments.renumber ρ = .arguments :=
    Param.renumber_self ρ (Nat.lt_trans traits.above traits.below)
  refine ⟨owner, fun p hp => ?_, ?_, fun part hpart => ?_⟩
  · rw [traits.argumentParam] at hp
    split at hp
    · cases hp
      exact arguments
    · cases hp
  · rw [traits.resolve, Resolve.exprOver_renumber ρ traits.plain, owner, arguments]
  · rw [traits.extracted_eq] at hpart
    obtain ⟨path, -, rfl⟩ := List.mem_map.mp hpart
    exact (memberChain_renumber ρ _ .json path).trans (by rw [renumber, owner])

/-! ## Directives -/

theorem Directive.conditional_renumber (ρ : Nat → Nat) (name description : String) (keep : Bool)
    (e : Expr) (arguments : Dict Json) :
    (conditional name description keep).processExpression (e.renumber ρ) arguments =
      ((conditional name description keep).processExpression e arguments).map
        (Option.map (renumber ρ)) := by
  show (condition name arguments >>= fun b => pure (if b == keep then _ else _)) =
    Except.map _ (condition name arguments >>= fun b => pure (if b == keep then _ else _))
  cases condition name arguments with
  | error m => rfl
  | ok b =>
    show pure (if b == keep then _ else _) = Except.map _ (pure (if b == keep then _ else _))
    split <;> rfl

/-! ## Extensions -/

/-- A drawing mirrors another one also where errors are possible. -/
theorem Fresh.Renumbered.lift {ε α β : Type} {r : α → β} {x : Fresh α} {y : Fresh β}
    (h : Fresh.Renumbered ρ r x y) :
    Mirrors ρ (low ≤ ·) r (x.lift : StateT Nat (Except ε) α) y.lift := by
  intro n hn
  obtain ⟨hy, hlow⟩ := h n hn
  refine ⟨?_, fun a s' ha => ?_⟩
  · show Except.ok (y (ρ n)) = _
    rw [hy]
    rfl
  · obtain rfl : (x n).2 = s' := congrArg Prod.snd (Except.ok.inj ha)
    exact hlow

/-- A hook that does under new numbers what another one does. -/
abbrev Hook.Renumbered {α β : Type} (ρ : Renumbering low) (r : α → β) (x : Hook α) (y : Hook β) :
    Prop :=
  Mirrors ρ (low ≤ ·) r x y

/-- A base expression and the parameter of the elements under new numbers. -/
abbrev based (ρ : Nat → Nat) : Expr × Option Param → Expr × Option Param :=
  Prod.map (renumber ρ) (Option.map (Param.renumber ρ))

namespace Extension

open Paging in
theorem paging_renumbered (defaultTake maxTake : Option Nat) (site : Site) (base : Expr)
    (item : Option Param) :
    Hook.Renumbered ρ (based ρ) ((paging defaultTake maxTake).preSelection site base item)
      ((paging defaultTake maxTake).preSelection site (base.renumber ρ)
        (item.map (Param.renumber ρ))) := by
  have sliced : ∀ skip take, (addTake (addSkip base skip) take).renumber ρ =
      addTake (addSkip (base.renumber ρ) skip) take := by
    intro skip take
    rcases skip with _ | _ | n <;> cases take <;> simp [addSkip, addTake, countExpr, renumber]
  show Hook.Renumbered ρ _ (Paging.preSelection _ _ _ _ _) (Paging.preSelection _ _ _ _ _)
  unfold Paging.preSelection
  split
  · exact .pure rfl
  · refine .lift ?_
    cases countArgument site "skip" with
    | error e => rfl
    | ok skip =>
      cases countArgument site "take" with
      | error e => rfl
      | ok given =>
        show (checkTake site (given <|> defaultTake <|> maxTake) maxTake >>= _) =
          Except.map _ (checkTake site (given <|> defaultTake <|> maxTake) maxTake >>= _)
        cases checkTake site (given <|> defaultTake <|> maxTake) maxTake with
        | error e => rfl
        | ok _ => exact congrArg Except.ok (Prod.ext (sliced _ _).symm rfl)

section Keys

open Extension.Sort (Key keys keyField addKey addKeys)

variable {site : Site} (settled : ∀ owner name f, site.fieldOf owner name = some f → f.Settled ρ)

include settled

theorem addKey_renumbered (element : Ty) (entity : String) (list : Expr) (first : Bool) (k : Key) :
    Hook.Renumbered ρ (renumber ρ) (addKey site element entity list first k)
      (addKey site element entity (list.renumber ρ) first k) := by
  unfold addKey
  cases hf : keyField site entity k.1 with
  | error e => exact .throw e
  | ok f =>
    have fixed : f.Settled ρ := by
      unfold keyField at hf
      split at hf
      · rename_i g hg
        split at hf <;> cases hf
        exact settled entity k.1 _ hg
      · cases hf
    show Hook.Renumbered ρ _ (pure f >>= _) (pure f >>= _)
    rw [pure_bind, pure_bind]
    refine (Fresh.Renumbered.param entity.toLower element).lift.bind fun item => ?_
    have value := replaceParam_renumbered (ρ := ρ) f.resolve f.param (.param item)
    rw [fixed.resolve, fixed.param] at value
    exact value.lift.bind fun value => .pure rfl

theorem addKeys_renumbered (element : Ty) (entity : String) (list : Expr) (first : Bool)
    (ks : List Key) :
    Hook.Renumbered ρ (renumber ρ) (addKeys site element entity list first ks)
      (addKeys site element entity (list.renumber ρ) first ks) := by
  induction ks generalizing list first with
  | nil => exact .pure rfl
  | cons k ks ih =>
    rw [addKeys, addKeys]
    exact (addKey_renumbered settled element entity list first k).bind fun list => ih list false

theorem sort_renumbered (default : List Key) (base : Expr) (item : Option Param) :
    Hook.Renumbered ρ (based ρ) ((sort default).preSelection site base item)
      ((sort default).preSelection site (base.renumber ρ) (item.map (Param.renumber ρ))) := by
  show Hook.Renumbered ρ _ (Sort.preSelection _ _ _ _) (Sort.preSelection _ _ _ _)
  unfold Sort.preSelection
  split
  · exact .pure rfl
  · refine Mirrors.bind (r := id) (.lift (by cases keys default _ <;> rfl)) fun ks => ?_
    rw [ty_renumber]
    dsimp only [id]
    split
    · exact .pure rfl
    · split
      · exact .throw _
      · split
        · exact .throw _
        · exact (addKeys_renumbered settled _ _ base true _).bind fun list => .pure rfl

end Keys

end Extension

end FieldPlan
