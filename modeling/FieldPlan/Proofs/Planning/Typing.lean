import FieldPlan.Proofs.Expr.Typed
import FieldPlan.Proofs.Planning.Closed
import FieldPlan.Proofs.Selection.Leaves

/-!
# Types of plans

* `Reads.typed`, `Renders.typed` : over a context whose type describes its value, the type of a
  rendering describes its value;
* `PassOutcome.typed` : so does the type of the plan of a pass over an input that its root type
  describes;
* `Planner.results_described` : the result type of a plan describes its results, and the second pass of
  a root field finds in its input just the members that it knows of.
-/

namespace FieldPlan

open Expr

open Extension.Paging (addSkip addTake)

section Renderings

variable {config : SchemaConfig} {final : PlanState} {C e : Expr} {known : Known}

/-! ## Values of fields -/

namespace Expr

theorem Chain.typed {path : List String} (h : C.Chain path e) (hC : Typed known C) :
    Typed known e := by
  induction h with
  | nil => exact hC
  | snoc name t _ member ih =>
    rcases member with member | ⟨-, bare⟩
    · exact .member ih member
    · exact .bare bare

/-- What a service gives and what is constant has a declared type, in which no record stands. -/
theorem Own.typed {Record : Param → Prop} {source : Resolve} (h : Own Record C source e)
    (hC : Typed known C) : Typed known e := by
  cases h with
  | member chain => exact chain.typed hC
  | service _ _ _ _ bare => exact .bare bare
  | constant _ _ bare => exact .bare bare

theorem Sorted.typed {entity : String} {element : Ty} {first : Bool}
    {order : List (String × Direction)} {base sorted : Expr}
    (h : Sorted config entity element first order base sorted) (hbase : Typed known base) :
    Typed known sorted := by
  induction h with
  | nil => exact hbase
  | @cons first _ d _ _ _ _ _ _ _ _ _ _ ih =>
    apply ih
    apply Typed.arranged _ hbase
    cases first <;> exact nofun

end Expr

theorem typed_slices {list : Expr} (h : Typed known list) (skip take : Option Nat) :
    Typed known (addTake (addSkip list skip) take) := by
  have skipped : Typed known (addSkip list skip) := by
    match skip with
    | none | some 0 => exact h
    | some (n + 1) => exact .arranged nofun h
  match take with
  | none => exact skipped
  | some n => exact .arranged nofun skipped

theorem Arranges.typed {base : Expr} {a : Arrangement} (h : Arranges config base a e)
    (hbase : Typed known base) : Typed known e := by
  cases h with
  | plain _ => exact typed_slices hbase _ _
  | sorted _ _ _ sorted => exact typed_slices (sorted.typed hbase) _ _

theorem Reads.typed {base : Expr} {item : Item} (h : Reads config final C item base e)
    (hC : Typed known C) : Typed known e := by
  obtain ⟨a, -, arranges⟩ := h.arranged
  exact arranges.typed (h.own.typed hC)

theorem PlanState.typed_bound (good : final.Good) (he : e.Coherent) (h : Typed known e) :
    Typed known (final.bound e) := by
  refine h.swap he good.renames fun x q hx hq => ?_
  -- the parameter of a service holds no record
  have ty := (good.renames (e := x) x (self_mem_subterms x) _ hx).2.1
  cases x with
  | service name => cases (congrArg Ty.hasRecord ty).symm.trans hq
  | _ => cases hx

/-! ## Coherence of renderings -/

theorem coherent_nullOf (t : Ty) : (nullOf t).Coherent :=
  coherent_iff.mpr ⟨trivial, by simp [nullOf, children]⟩

theorem coherent_nullGuarded {guard build : Expr} (hg : guard.Coherent) (hb : build.Coherent) :
    (Expr.nullGuarded guard build).Coherent := by
  have test : (isNull guard).Coherent :=
    coherent_iff.mpr ⟨trivial, by simp [isNull, children, hg, coherent_nullOf]⟩
  exact coherent_iff.mpr ⟨trivial, by simp [nullGuarded, children, test, hb, coherent_nullOf]⟩

theorem coherent_guardIf {needed : Bool} {guard build : Expr} (hg : guard.Coherent)
    (hb : build.Coherent) : (guardIf needed guard build).Coherent := by
  unfold guardIf
  split
  · exact coherent_nullGuarded hg hb
  · exact hb

theorem coherent_record {name : String} {fields : List (String × Expr)}
    (h : ∀ field ∈ fields, field.2.Coherent) : (Expr.record name fields).Coherent := by
  refine coherent_iff.mpr ⟨trivial, fun c hc => ?_⟩
  obtain ⟨field, hf, rfl⟩ := List.mem_map.mp hc
  exact h field hf

theorem coherent_select {source body : Expr} {x : Param} (hs : source.Coherent)
    (hx : source.ty.element? = some x.ty) (hb : body.Coherent) :
    (Expr.select source x body).Coherent := by
  refine coherent_iff.mpr ⟨fun u hu => Option.some.inj (hu.symm.trans hx), ?_⟩
  simp [children, hs, hb]

theorem coherent_letIn {value body : Expr} {p : Param} (hv : value.Coherent) (hp : value.ty = p.ty)
    (hb : body.Coherent) : (Expr.letIn p value body).Coherent :=
  coherent_iff.mpr ⟨hp, by simp [children, hv, hb]⟩

theorem PlanState.ty_bound (good : final.Good) (he : e.Coherent) : (final.bound e).ty = e.ty :=
  (good.renames (e := e)).ty_swap he

theorem PlanState.coherent_bound (good : final.Good) (he : e.Coherent) :
    (final.bound e).Coherent :=
  (good.renames (e := e)).coherent_swap he

mutual

/-- The types of members and binders agree in a rendering. -/
theorem Renders.coherent (good : final.Good) {C e : Expr} {w : Wanted}
    (h : Renders config final C w e) : e.Coherent := by
  match h with
  | .leaf reads => exact PlanState.coherent_bound good reads.coherent
  | .plain reads _ all _ =>
    exact coherent_guardIf reads.coherent (coherent_record (all.coherent good))
  | @Renders.wrapped _ _ _ _ e item _ fields p reads _ called all _ hty _ _ _ =>
    have ty : (final.bound e).ty = p.ty := (PlanState.ty_bound good reads.coherent).trans hty.symm
    refine coherent_letIn (PlanState.coherent_bound good reads.coherent) ty
      (coherent_nullGuarded (coherent_param p) (coherent_record fun field hf => ?_))
    obtain ⟨before, hbefore, rfl⟩ := List.mem_map.mp hf
    have renames : before.2.Renames (rewrap final e p) :=
      renames_rewrap good reads.coherent called hty
    exact renames.coherent_swap (all.coherent good before hbefore)
  | .items reads _ hx all _ _ =>
    obtain ⟨a, -, arranges⟩ := reads.arranged
    have base := reads.coherent.subterm arranges.base_mem
    rw [← arranges.ty_eq] at hx
    exact coherent_guardIf base (coherent_select reads.coherent hx (coherent_record (all.coherent good)))
  | @Renders.fetched _ _ _ _ e item _ fields x p reads _ hx all _ _ hp _ =>
    obtain ⟨a, -, arranges⟩ := reads.arranged
    rw [← arranges.ty_eq] at hx
    have bound := PlanState.coherent_bound good reads.coherent
    have ty := PlanState.ty_bound good reads.coherent
    split
    · have source : (Expr.param p).ty.element? = some x.ty := (congrArg Ty.element? hp).trans hx
      refine coherent_letIn bound (ty.trans hp.symm) (coherent_nullGuarded (coherent_param p) ?_)
      exact coherent_select (coherent_param p) source (coherent_record (all.coherent good))
    · exact coherent_select bound (ty ▸ hx) (coherent_record (all.coherent good))

theorem RendersAll.coherent (good : final.Good) {C : Expr} {ws : List Wanted}
    {fields : List (String × Expr)} (h : RendersAll config final C ws fields) :
    ∀ field ∈ fields, field.2.Coherent := by
  match h with
  | .nil => simp
  | .cons hw hall => exact List.forall_mem_cons.mpr ⟨hw.coherent good, hall.coherent good⟩

end

/-! ## Types of renderings -/

mutual

/-- Over a context whose type describes its value, so does the type of a rendering. -/
theorem Renders.typed (good : final.Good) {known : Known} {C e : Expr} {w : Wanted}
    (h : Renders config final C w e) (hC : Typed known C) : Typed known e := by
  match h with
  | .leaf reads => exact PlanState.typed_bound good reads.coherent (reads.typed hC)
  | @Renders.plain _ _ _ _ _ item _ fields reads _ all hn =>
    have record : Typed known (.record item.name fields) := .record hn (all.typed good (reads.typed hC))
    unfold guardIf
    split
    · exact typed_nullGuarded record
    · exact record
  | @Renders.wrapped _ _ _ _ e item _ fields p reads _ called all hn hty _ hids _ =>
    have bound := PlanState.typed_bound good reads.coherent (reads.typed hC)
    have ty : (final.bound e).ty = p.ty := (PlanState.ty_bound good reads.coherent).trans hty.symm
    have keys : Dict.keys (rewrapped final e p fields) = Dict.keys fields := by
      simp [rewrapped, Dict.keys, Function.comp_def]
    refine .letIn bound ty (typed_nullGuarded (.record (keys.symm ▸ hn) fun field hf => ?_))
    obtain ⟨before, hbefore, rfl⟩ := List.mem_map.mp hf
    have fresh := hids before hbefore
    have before_typed : Typed (known.bind p) before.2 := by
      refine (all.typed good (reads.typed hC) before hbefore).mono fun q hq hk => ?_
      apply Known.bind_other hk
      rintro hid
      exact fresh (hid ▸ hq)
    refine before_typed.swap (all.coherent good before hbefore)
      (renames_rewrap good reads.coherent called hty) fun x q hx _ => ?_
    cases (rewrap_some hx).1
    exact ⟨Known.bind_self known p, fun hb => fresh (ids_of_binders hb)⟩
  | @Renders.items _ _ _ base e item _ fields x reads _ hx all hn _ =>
    obtain ⟨a, -, arranges⟩ := reads.arranged
    rw [← arranges.ty_eq] at hx
    have body : Typed (known.bind x) (.record item.name fields) :=
      .record hn (all.typed good (.param (Known.bind_self known x)))
    unfold guardIf
    split
    · exact typed_nullGuarded (.select (reads.typed hC) hx body)
    · exact .select (reads.typed hC) hx body
  | @Renders.fetched _ _ _ _ e item _ fields x p reads _ hx all hn _ hp _ =>
    obtain ⟨a, -, arranges⟩ := reads.arranged
    rw [← arranges.ty_eq] at hx
    have bound := PlanState.typed_bound good reads.coherent (reads.typed hC)
    have ty := PlanState.ty_bound good reads.coherent
    have body : ∀ known : Known, Typed (known.bind x) (.record item.name fields) := fun known =>
      .record hn (all.typed good (.param (Known.bind_self known x)))
    split
    · have source : (Expr.param p).ty.element? = some x.ty := (congrArg Ty.element? hp).trans hx
      refine .letIn bound (ty.trans hp.symm) (typed_nullGuarded ?_)
      exact .select (.param (Known.bind_self known p)) source (body _)
    · exact .select bound (ty ▸ hx) (body known)

theorem RendersAll.typed (good : final.Good) {known : Known} {C : Expr} {ws : List Wanted}
    {fields : List (String × Expr)} (h : RendersAll config final C ws fields)
    (hC : Typed known C) : ∀ field ∈ fields, Typed known field.2 := by
  match h with
  | .nil => simp
  | .cons hw hall => exact List.forall_mem_cons.mpr ⟨hw.typed good hC, hall.typed good hC⟩

end

/-- A record stands in the type of an object or a list that is rendered. -/
theorem Renders.hasRecord {w : Wanted} (h : Renders config final C w e)
    (hw : ∀ item, w ≠ .leaf item) : e.ty.hasRecord = true := by
  cases h with
  | leaf => exact absurd rfl (hw _)
  | plain =>
    unfold guardIf
    split <;> rfl
  | wrapped => rfl
  | items =>
    unfold guardIf
    split <;> rfl
  | fetched => split <;> rfl

end Renderings

/-! ## Passes -/

section Passes

variable {config : SchemaConfig} {c : Planner} {frame : Frame} {s : Selected} {root : Param} {n n' : Nat} {w : Wanted}
  {plan : Plan}

/-- In the environment of a plan the root parameter has the input as its value. -/
theorem Plan.env_yields {σ : Type} {services : Services σ}
    (apart : plan.root.id ∉ plan.bindings.map (·.1.id)) (input : Json) :
    Yields (fun env : Env σ => env.scope.value plan.root = some input) (plan.env services input) := by
  have start : Env.scope [(plan.root.id, (.value input : Slot σ))] plan.root.id =
      some (.value input) := by
    rw [Env.scope_cons, if_pos rfl]
    rfl
  have kept : Yields (fun env : Env σ => env.scope plan.root.id = some (.value input))
      (plan.env services input) := by
    refine Yields.foldlM
      (Q := fun env : Env σ => env.scope plan.root.id = some (.value input)) start ?_
    intro env entry hentry henv
    refine .bind (P := fun _ => True) (.of_forall (fun _ => trivial) _) fun slot _ => .pure ?_
    have other : plan.root.id ≠ entry.1.id := fun h => apart (h ▸ List.mem_map_of_mem hentry)
    rw [Env.scope_cons, if_neg other]
    exact henv
  intro state env next henv
  unfold Scope.value
  rw [kept state env next henv]

/-- Over an input that its root type describes the type of the plan of a pass describes its value. -/
theorem PassOutcome.typed (h : PassOutcome config c frame s root n n' (some w) (some plan)) :
    plan.root = root ∧ Typed (· = plan.root) plan.body := by
  obtain ⟨final, body, -, outcome, hplan⟩ := h.planned
  cases outcome with
  | @some _ body _ good _ plans =>
    cases hplan
    exact ⟨rfl, (plans.renders final (.refl _) good).typed good (.param rfl)⟩

theorem PassOutcome.described (h : PassOutcome config c frame s root n n' (some w) (some plan))
    (hroot : root.id < n) {σ : Type} (services : Services σ) {input : Json}
    (hinput : plan.root.ty.Describes input) :
    Yields plan.resultTy.Describes (plan.run services input) := by
  obtain ⟨-, apart, -, -⟩ := h.scoped hroot
  obtain ⟨-, typed⟩ := h.typed
  refine .bind (plan.env_yields apart input) fun env henv => typed.yields ?_ []
  rintro p rfl v hv
  cases henv.symm.trans hv
  exact hinput

/-- A scalar field without services has none at or below it. -/
theorem SelectionTree.Leafy.not_hasAnyServices {t : SelectionTree} (h : t.Leafy) {id : NodeId}
    {node : Node} {f : Field} (hn : t.node? id = some node) (hf : node.selects = .field f)
    (scalar : f.shape = .scalar) (unserved : f.hasServices = false) : t.hasAnyServices id = false := by
  have none : node.children = [] := h id node f hn hf scalar
  have unspread : node.spread? = Option.none := by simp [Node.spread?, hf]
  have here : node.hasServices = false := by simp [Node.hasServices, Node.field?, hf, unserved]
  simp [hasAnyServices, findsServices, searchDepth, search, hn, here, below, unspread, none]

/-- What a shape pass hands to a service pass is an object or a list that it has built. -/
theorem PassOutcome.hasRecord (leafy : c.tree.Leafy) (kept : c.Kept s)
    (served : c.tree.hasAnyServices s.id = true)
    (h : PassOutcome config c ⟨.shape, false, true⟩ s root n n' (some w) (some plan)) :
    plan.resultTy.hasRecord = true := by
  have wanted := h.wanted
  obtain ⟨final, body, -, outcome, hplan⟩ := h.planned
  cases outcome with
  | @some _ body _ good _ plans =>
    cases hplan
    have renders := plans.renders final (.refl _) good
    rw [Wanted.view_unchanged rfl] at renders
    refine renders.hasRecord ?_
    rintro item rfl
    cases Planner.wanted_iff.mp wanted with
    | scalar unserved _ scalar =>
      have none := leafy.not_hasAnyServices kept.node kept.selects scalar (unserved rfl)
      exact Bool.noConfusion (none.symm.trans served)
    | carried _ carries => exact Bool.noConfusion (Planner.keepsWhole_iff.mp carries).2.1

end Passes

/-! ## Operations -/

/-- The result type of a plan describes its results, if the type of its root describes the input. The
service pass after a shape pass is planned over the result type of that one: its input is described by
the type of its root, and an object has just the members that are known of the root. -/
theorem Planner.results_described {config : SchemaConfig} {c : Planner} {request : Request}
    (built : config.build = .ok c.schema) (requested : request.build c.schema = .ok c.tree)
    {op : PlannedOperation} (planned : c.plan = .ok op) {field : PlannedField}
    (hf : field ∈ op.fields) :
    (∀ pass plan, (pass, plan) ∈ field.plans c.options.separately →
      ∀ {σ : Type} (services : Services σ) input, plan.root.ty.Describes input →
        ∀ state v next, plan.run services input state = (.ok v, next) → plan.resultTy.Describes v) ∧
    ∀ shape service, field.shapePass = some shape → field.servicePass = some service →
      service.root.ty = shape.resultTy ∧
      ∀ {σ : Type} (services : Services σ) data state v next,
        shape.run services data state = (.ok v, next) →
          service.root.ty.Describes v ∧ ∀ members, v = .obj members → ∀ name,
            (Dict.find? members name).isSome =
              ((Expr.param service.root).recordMember? name).isSome := by
  have onSchema := Request.build_over (SchemaConfig.indexed built) requested
  obtain ⟨rootType, p, -, rfl, settles⟩ := plan_ok built onSchema planned
  obtain ⟨ss, -, hall⟩ := settles.accepted
  obtain ⟨s, -, accepts⟩ := exists_of_forall₂ hall hf
  obtain ⟨n, n', -, outcome⟩ := accepts.planned
  constructor
  · intro pass plan hp σ services input hinput
    obtain ⟨frame, root, m, m', w, -, -, below, pass⟩ := outcome.plans hp
    exact pass.described below services hinput
  · intro shape service hshape hservice
    cases outcome with
    | single | shape => cases hservice
    | services => cases hshape
    | @both m w shaped found plan _ served first second =>
      cases hshape
      cases hservice
      obtain ⟨final, body, -, rendered, hplan⟩ := second.planned
      have root : service.root = ⟨m, s.node.name, shape.resultTy⟩ := by
        cases rendered with
        | none => cases hplan
        | some => exact congrArg Plan.root (Option.some.inj hplan)
      have ty : service.root.ty = shape.resultTy := congrArg Param.ty root
      have record := first.hasRecord (Request.build_leafy requested) accepts.kept served
      refine ⟨ty, fun services data state v next hrun => ?_⟩
      have described : service.root.ty.Describes v := by
        rw [ty]
        refine first.described (Nat.lt_succ_self _) services ?_ state v next hrun
        rw [first.typed.1]
        exact Ty.describes_of_bare rfl data
      refine ⟨described, ?_⟩
      rintro members rfl name
      have related := described.find? (ty ▸ record) name
      rw [recordMember_eq, Expr.ty]
      generalize Dict.find? members name = found at related
      generalize service.root.ty.member? name = known at related
      cases related <;> rfl

namespace Split

/-- A person whose luck a service gives for a number. -/
def config : SchemaConfig where
  query := "Query"
  mutation := none
  types := [
    ("Query", ⟨none, [("person", .short "Person")]⟩),
    ("Person", ⟨none, [("name", .short "String"), ("age", .short "Int"),
      ("luck", Zeros.called "String" (.int 7))]⟩)]
  inputs := []
  enums := []

/-- The age, the luck and the name of the person. -/
def request : Request :=
  ⟨.query, [Zeros.select "person"
    [Zeros.select "age" [], Zeros.select "luck" [], Zeros.select "name" []]], []⟩

def schema : Schema := okOf config.build (by decide +kernel)

def tree : SelectionTree := okOf (request.build schema) (by decide +kernel)

/-- The request, to be planned in two passes. -/
def planner : Planner where
  schema := schema
  tree := tree
  assignment := []
  authorizer := .all
  registered := none
  options := {}

def op : PlannedOperation := okOf planner.plan (by decide +kernel)

def field : PlannedField := op.fields.head (by decide +kernel)

/-- A person, of whom more is known than is selected. -/
def data : Json :=
  .obj [("person", .obj [("name", .str "Ada"), ("age", .int 36), ("title", .str "Countess")])]

/-- The members that the shape pass hands to the service pass. -/
def materialized : Option (Dict Json) :=
  field.shapePass.bind fun shape =>
    match (shape.run (fun _ => none : Services Unit) data ()).1 with
    | .ok (.obj members) => some members
    | _ => none

end Split

open Split in
theorem results_described_split : ∃ shape service members,
    field.shapePass = some shape ∧ field.servicePass = some service ∧
      (shape.run (fun _ => none : Services Unit) data ()).1 = .ok (.obj members) ∧
      Dict.keys members = ["age", "name"] ∧ shape.resultTy.Describes (.obj members) ∧
      ∀ name, (Dict.find? members name).isSome =
        ((Expr.param service.root).recordMember? name).isSome := by
  have built : config.build = .ok planner.schema := by
    simp only [planner]
    exact eq_okOf config.build _
  have requested : request.build planner.schema = .ok planner.tree := by
    simp only [planner]
    exact eq_okOf (request.build schema) _
  have planned : planner.plan = .ok op := eq_okOf planner.plan _
  obtain ⟨-, handed⟩ := Planner.results_described built requested planned (List.head_mem _ : field ∈ _)
  have hservice : field.servicePass.isSome = true := by decide +kernel
  have hkeys : materialized.map Dict.keys = some ["age", "name"] := by decide +kernel
  obtain ⟨service, hservice⟩ := Option.isSome_iff_exists.mp hservice
  obtain ⟨members, hmembers, keys⟩ := Option.map_eq_some_iff.mp hkeys
  unfold materialized at hmembers
  obtain ⟨shape, hshape, hmembers⟩ := Option.bind_eq_some_iff.mp hmembers
  obtain ⟨ty, handed⟩ := handed shape service hshape hservice
  split at hmembers
  · rename_i hrun
    cases hmembers
    obtain ⟨described, known⟩ := handed _ data () _ _ (Prod.ext hrun rfl)
    exact ⟨shape, service, members, hshape, hservice, hrun, keys, ty ▸ described, known members rfl⟩
  · cases hmembers

end FieldPlan
