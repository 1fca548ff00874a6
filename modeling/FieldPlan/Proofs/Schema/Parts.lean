import FieldPlan.Proofs.Expr.Served
import FieldPlan.Proofs.Schema.Source
import Mathlib.Data.List.Induction

/-!
# The parts of service-backed fields

* `ServiceArg.path?`, `partPaths` : the paths that a service call reads from its owner, and those
  among them that are handed to the service pass, the first under each name;
* `Field.Traits.hasServices_eq` : a field is service-backed if its value comes from a service;
* `Field.Traits.extracted_eq` : the parts of a field are the chains along these paths.
-/

namespace FieldPlan

/-- The path that an argument reads from the owner. -/
def ServiceArg.path? : ServiceArg → Option (List String)
  | .member path => some path
  | _ => none

/-- Adds a path unless another one has its name. -/
def addPath (field : String) (paths : List (List String)) (path : List String) :
    List (List String) :=
  if paths.any (extractedName field · == extractedName field path) then paths else paths ++ [path]

/-- The paths that a field hands to the service pass. -/
def Resolve.partPaths (field : String) : Resolve → List (List String)
  | .service _ _ args => (args.filterMap ServiceArg.path?).foldl (addPath field) []
  | _ => []

theorem memberChain_cons (root : Expr) (t : Ty) (name next : String) (rest : List String) :
    memberChain root t (name :: next :: rest) =
      memberChain (.member root name .json) t (next :: rest) := rfl

theorem memberChain_concat (root : Expr) (path : List String) (name : String) :
    memberChain root .json (path ++ [name]) = .member (memberChain root .json path) name .json := by
  induction path generalizing root with
  | nil => rfl
  | cons first rest ih =>
    cases rest with
    | nil => rfl
    | cons next rest => exact ih (.member root first .json)

theorem pathFrom_memberChain (p : Param) (path : List String) :
    (memberChain (.param p) .json path).pathFrom? p = some path := by
  induction path using List.reverseRec with
  | nil => simp [memberChain, Expr.pathFrom?]
  | append_singleton path name ih => rw [memberChain_concat, Expr.pathFrom?, ih, Option.map_some]

theorem topmost_of_some {α : Type} {f : Expr → Option α} {e : Expr} {a : α} (h : f e = some a) :
    e.topmost f = [a] := by
  cases e <;> simp [Expr.topmost, h]

theorem memberChains_memberChain (p : Param) {path : List String} (hp : path ≠ []) :
    (memberChain (.param p) .json path).memberChains p =
      [(path, memberChain (.param p) .json path)] := by
  refine topmost_of_some ?_
  unfold Expr.chainFrom?
  rw [pathFrom_memberChain]
  cases path with
  | nil => exact absurd rfl hp
  | cons => rfl

theorem memberChains_argument {p a : Param} (h : a.id ≠ p.id) (arg : ServiceArg) (ha : arg.Plain) :
    (arg.expr p a).memberChains p =
      arg.path?.toList.map fun path => (path, memberChain (.param p) .json path) := by
  cases arg with
  | member path => exact memberChains_memberChain p ha
  | argument name => simp [ServiceArg.expr, Expr.memberChains, Expr.topmost, Expr.chainFrom?,
      Expr.pathFrom?, h, ServiceArg.path?]
  | constant v => simp [ServiceArg.expr, Expr.memberChains, Expr.topmost, Expr.chainFrom?,
      Expr.pathFrom?, ServiceArg.path?]

theorem topmostList_arguments {p a : Param} (h : a.id ≠ p.id) {args : List ServiceArg}
    (ha : ∀ arg ∈ args, arg.Plain) :
    Expr.topmostList (Expr.chainFrom? p) (args.map (·.expr p a)) =
      (args.filterMap ServiceArg.path?).map fun path => (path, memberChain (.param p) .json path) := by
  induction args with
  | nil => rfl
  | cons arg args ih =>
    have head := memberChains_argument h arg (ha arg List.mem_cons_self)
    rw [List.map_cons, Expr.topmostList, ih fun b hb => ha b (List.mem_cons_of_mem _ hb)]
    rw [show Expr.topmost (Expr.chainFrom? p) (arg.expr p a) = _ from head]
    cases hp : arg.path? <;> simp [hp]

theorem foldl_addExtracted (field : String) (p : Param) (paths known : List (List String)) :
    (paths.map fun path => (⟨extractedName field path, memberChain (.param p) .json path⟩ :
        Extracted)).foldl addExtracted
      (known.map fun path => ⟨extractedName field path, memberChain (.param p) .json path⟩) =
      (paths.foldl (addPath field) known).map fun path =>
        ⟨extractedName field path, memberChain (.param p) .json path⟩ := by
  induction paths generalizing known with
  | nil => rfl
  | cons path paths ih =>
    rw [List.map_cons, List.foldl_cons, List.foldl_cons, ← ih]
    congr 1
    unfold addExtracted addPath
    simp only [List.any_map, Function.comp_def]
    split <;> simp

theorem Expr.ids_memberChain (root : Expr) (t : Ty) (path : List String) :
    (memberChain root t path).ids = root.ids := by
  induction path generalizing root with
  | nil => rfl
  | cons name rest ih =>
    have step : ∀ t, (Expr.member root name t).ids = root.ids := fun t => by
      simp [Expr.ids, Expr.subterms, Expr.own?, Expr.bound?]
    cases rest with
    | nil => exact step t
    | cons next rest => exact (ih _).trans (step .json)

theorem not_served_memberChain {root : Expr} (h : ¬root.Served) (t : Ty) (path : List String) :
    ¬(memberChain root t path).Served := by
  induction path generalizing root with
  | nil => exact h
  | cons name rest ih =>
    have step : ∀ t, ¬(Expr.member root name t).Served := fun t => by
      rw [Expr.served_iff]
      simpa [Expr.children] using h
    cases rest with
    | nil => exact step t
    | cons next rest => exact ih (step .json)

theorem not_served_param (p : Param) : ¬(Expr.param p).Served := by
  rw [Expr.served_iff]
  simp [Expr.children]

/-- Whether a value comes from a service directly. -/
def Resolve.isService : Resolve → Bool
  | .service _ _ _ => true
  | _ => false

theorem Resolve.served_exprOver {source : Resolve} (plain : source.Plain) (t : Ty)
    (owner arguments : Param) :
    (source.exprOver t owner arguments).Served ↔ source.isService = true := by
  cases source with
  | member path =>
    have hs := not_served_memberChain (not_served_param owner) t path
    exact iff_of_false hs Bool.noConfusion
  | service name method args =>
    refine iff_of_true ⟨name, ?_⟩ rfl
    exact Expr.mem_subterms_of_child List.mem_cons_self (Expr.self_mem_subterms _)
  | constant v =>
    refine iff_of_false ?_ Bool.noConfusion
    rw [Resolve.exprOver, Expr.served_iff]
    simp [Expr.children]
  | expr e => exact plain.elim

/-- A field is service-backed if its value comes from a service directly. -/
theorem Field.Traits.hasServices_eq {config : SchemaConfig} {fresh : Nat} {f : Field}
    {fc : FieldConfig} {source : Resolve} (h : f.Traits config fresh fc source) :
    f.hasServices = source.isService := by
  rw [FieldDef.hasServices, h.services, Bool.eq_iff_iff, Bool.not_eq_true', ← Bool.not_eq_true,
    Expr.services_isEmpty, not_not, h.resolve, Resolve.served_exprOver h.plain]

/-- The parts of a field are the chains along the paths that it hands to the service pass. -/
theorem Field.Traits.extracted_eq {config : SchemaConfig} {fresh : Nat} {f : Field}
    {fc : FieldConfig} {source : Resolve} (h : f.Traits config fresh fc source) :
    f.extracted = (source.partPaths f.name).map fun path =>
      ⟨extractedName f.name path, memberChain (.param f.param) .json path⟩ := by
  rw [h.extracted]
  have plain := h.plain
  have hne : Param.arguments.id ≠ f.param.id := Nat.ne_of_lt h.above
  have served := Resolve.served_exprOver plain f.ty f.param .arguments
  rw [h.resolve]
  cases source with
  | member path =>
    rw [if_pos (Expr.services_isEmpty.mpr fun hs => Bool.noConfusion (served.mp hs))]
    rfl
  | service name method args =>
    rw [if_neg fun hs => Expr.services_isEmpty.mp hs (served.mpr rfl)]
    have chains : ((Resolve.service name method args).exprOver f.ty f.param .arguments).memberChains
        f.param = (args.filterMap ServiceArg.path?).map fun path =>
          (path, memberChain (.param f.param) .json path) := by
      simp only [Resolve.exprOver, Expr.memberChains, Expr.topmost, Expr.chainFrom?, Expr.pathFrom?,
        Option.elim, topmostList_arguments hne plain, List.nil_append]
    unfold extractFields
    rw [chains, List.map_map]
    exact foldl_addExtracted f.name f.param _ []
  | constant v => rfl
  | expr e => exact plain.elim

end FieldPlan
