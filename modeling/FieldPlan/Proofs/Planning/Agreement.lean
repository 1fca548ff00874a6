import FieldPlan.Proofs.Planning.TwoPasses

/-!
# One pass and two passes agree

* `Planner.inPasses` : the planner of a request in one pass or in two;
* `Selected.firsts` : the selections of a list before which there is none of their name;
* `Planner.plan_clean_iff`, `Planner.plan_clean` : an operation is planned without errors if the first
  root fields of their names can be planned, and these are its fields;
* `Planner.two_passes_agree` : an operation is planned without errors in one pass just if it is in two,
  and gives the same then;
* `Held` : services that tell the two zeros apart give an object in one pass and another one in two.
-/

namespace FieldPlan

section Agreement

variable {config : SchemaConfig} {c : Planner}

/-! ## Root fields in their order -/

/-- Adds a selection unless there is one of its name. -/
def Selected.addFirst (ss : List Selected) (s : Selected) : List Selected :=
  if ss.any (·.node.name == s.node.name) then ss else ss ++ [s]

/-- The selections before which there is none of their name. -/
def Selected.firsts (selected : List Selected) : List Selected := selected.foldl addFirst []

theorem Selected.firsts_append (selected : List Selected) (s : Selected) :
    firsts (selected ++ [s]) = addFirst (firsts selected) s := by
  rw [firsts, List.foldl_append]
  rfl

theorem Selected.mem_addFirst {ss : List Selected} {s a : Selected} (h : a ∈ addFirst ss s) :
    a ∈ ss ∨ a = s := by
  unfold addFirst at h
  split at h
  · exact .inl h
  · exact (List.mem_append.mp h).imp_right List.mem_singleton.mp

theorem Selected.mem_of_mem_firsts {selected : List Selected} {s : Selected}
    (h : s ∈ firsts selected) : s ∈ selected := by
  induction selected using List.reverseRecOn with
  | nil => cases h
  | append_singleton rest a ih =>
    rw [firsts_append] at h
    rcases mem_addFirst h with h | rfl
    · exact List.mem_append_left _ (ih h)
    · exact List.mem_append_right _ List.mem_cons_self

theorem Selected.firsts_grows (selected : List Selected) (s : Selected) :
    firsts selected <+: firsts (selected ++ [s]) := by
  rw [firsts_append, addFirst]
  split
  · exact List.prefix_refl _
  · exact List.prefix_append _ _

namespace Planner

variable {rootType : String}

/-- A root field was planned under its name. -/
def Planned (config : SchemaConfig) (c : Planner) (rootType : String) (s : Selected)
    (field : PlannedField) : Prop :=
  ∃ n n', RootOutcome config c rootType s n n' field

theorem any_iff_of_planned {ss : List Selected} {fields : List PlannedField}
    (h : List.Forall₂ (Planned config c rootType) ss fields) (name : String) :
    fields.any (·.name == name) = ss.any (·.node.name == name) := by
  induction h with
  | nil => rfl
  | cons hfirst _ ih =>
    obtain ⟨n, n', outcome⟩ := hfirst
    rw [List.any_cons, List.any_cons, ih, outcome.name_eq]

/-! ## Operations without errors -/

theorem collect_ok {p p' : Progress} {name : String} {e : PlanError} (h : p.collect name e = .ok p') :
    p'.errors ≠ [] := by
  unfold Progress.collect at h
  split at h
  · cases h
  · cases h
    exact List.append_ne_nil_of_right_ne_nil _ (List.cons_ne_nil _ _)

/-- Errors that were noted stay. -/
theorem addRootField_errors {p p' : Progress} {s : Selected}
    (h : c.addRootField rootType p s = .ok p') (none : p'.errors = []) : p.errors = [] := by
  unfold addRootField at h
  split at h
  · cases h
    exact none
  · split at h
    · cases h
      exact none
    · exact absurd none (collect_ok h)

theorem foldlM_addRootField_errors {selected : List Selected} {p p' : Progress}
    (h : selected.foldlM (c.addRootField rootType) p = .ok p') (none : p'.errors = []) :
    p.errors = [] := by
  revert none
  refine foldlM_ok (fun _ p' => p'.errors = [] → p.errors = []) h id ?_
  exact fun _ _ _ _ _ _ before hadd none => before (addRootField_errors hadd none)

/-- Without errors, all roots are expanded, and the root fields are planned one after the other. -/
theorem foldlM_addRoot_ok {roots : List NodeId} {p p' : Progress}
    (h : roots.foldlM (c.addRoot rootType) p = .ok p') (none : p'.errors = []) :
    (∀ root ∈ roots, ∃ ss, c.expandRoot root = .ok ss) ∧
      (roots.flatMap fun root => (c.expandRoot root).toOption.getD []).foldlM
        (c.addRootField rootType) p = .ok p' := by
  revert none
  refine foldlM_ok (fun done p' => p'.errors = [] →
    (∀ root ∈ done, ∃ ss, c.expandRoot root = .ok ss) ∧
      (done.flatMap fun root => (c.expandRoot root).toOption.getD []).foldlM
        (c.addRootField rootType) p = .ok p') h (fun _ => ⟨by simp, rfl⟩) ?_
  intro done root _ q q' _ before hadd none
  unfold addRoot at hadd
  cases hroot : c.expandRoot root with
  | error e =>
    rw [hroot] at hadd
    exact absurd none (collect_ok hadd)
  | ok ss =>
    rw [hroot] at hadd
    obtain ⟨expanded, fold⟩ := before (foldlM_addRootField_errors hadd none)
    refine ⟨fun r hr => ?_, ?_⟩
    · rcases List.mem_append.mp hr with hr | hr
      · exact expanded r hr
      · cases List.mem_singleton.mp hr
        exact ⟨ss, hroot⟩
    · rw [List.flatMap_append, List.foldlM_append, fold, List.flatMap_singleton, hroot]
      exact hadd

/-- Roots that are expanded add their root fields one after the other. -/
theorem foldlM_addRoot_eq {roots : List NodeId}
    (expanded : ∀ root ∈ roots, ∃ ss, c.expandRoot root = .ok ss) (p : Progress) :
    roots.foldlM (c.addRoot rootType) p =
      (roots.flatMap fun root => (c.expandRoot root).toOption.getD []).foldlM
        (c.addRootField rootType) p := by
  induction roots generalizing p with
  | nil => rfl
  | cons root roots ih =>
    obtain ⟨⟨ss, hss⟩, hroots⟩ := List.forall_mem_cons.mp expanded
    rw [List.foldlM_cons, List.flatMap_cons, List.foldlM_append, hss]
    have step : c.addRoot rootType p root = ss.foldlM (c.addRootField rootType) p := by
      unfold addRoot
      rw [hss]
    rw [step]
    exact bind_congr fun q => ih hroots q

section Operations

variable (built : config.build = .ok c.schema) (onSchema : c.tree.Over c.schema)

include built onSchema

/-- Without errors, the first root fields of their names are planned. -/
theorem foldlM_addRootField_ok {selected : List Selected} (kept : ∀ s ∈ selected, c.Kept s)
    {p : Progress} (h : selected.foldlM (c.addRootField rootType) { fresh := c.schema.fresh } = .ok p) :
    c.schema.fresh ≤ p.fresh ∧ (p.errors = [] →
      List.Forall₂ (Planned config c rootType) (Selected.firsts selected) p.fields) := by
  refine foldlM_ok (fun done p => c.schema.fresh ≤ p.fresh ∧ (p.errors = [] →
    List.Forall₂ (Planned config c rootType) (Selected.firsts done) p.fields)) h
      ⟨Nat.le_refl _, fun _ => .nil⟩ ?_
  rintro done s rest q q' hsplit ⟨above, before⟩ hadd
  have none := addRootField_errors hadd
  unfold addRootField at hadd
  rw [Selected.firsts_append]
  split at hadd
  · rename_i old
    cases hadd
    refine ⟨above, fun clean => ?_⟩
    rw [Selected.addFirst, if_pos]
    · exact before clean
    · rwa [← any_iff_of_planned (before clean)]
  · rename_i new
    split at hadd
    · rename_i field fresh hplan
      cases hadd
      have outcome := planRoot_ok built onSchema (kept s (by simp [hsplit])) above hplan
      refine ⟨Nat.le_trans above outcome.fresh_le, fun clean => ?_⟩
      rw [Selected.addFirst, if_neg]
      · exact List.rel_append (before (none clean)) (.cons ⟨_, _, outcome⟩ .nil)
      · rwa [← any_iff_of_planned (before (none clean))]
    · have dirty := collect_ok hadd
      unfold Progress.collect at hadd
      split at hadd
      · cases hadd
      · cases hadd
        exact ⟨above, fun clean => absurd clean dirty⟩

/-- An operation that is planned without errors. -/
theorem plan_clean {op : PlannedOperation} (h : c.plan = .ok op) (none : op.errors = []) :
    ∃ rootType, c.schema.rootType c.tree.kind = some rootType ∧
      (∀ root ∈ c.tree.roots, ∃ ss, c.expandRoot root = .ok ss) ∧
        List.Forall₂ (Planned config c rootType) (Selected.firsts c.rootSelected) op.fields := by
  unfold plan at h
  split at h
  · cases h
  · rename_i rootType hroot
    obtain ⟨p, hfold, h⟩ := bind_ok.mp h
    cases h
    obtain ⟨expanded, fold⟩ := foldlM_addRoot_ok hfold none
    have kept : ∀ s ∈ c.rootSelected, c.Kept s := fun s => kept_of_rootSelected built onSchema
    exact ⟨rootType, hroot, expanded, (foldlM_addRootField_ok built onSchema kept fold).2 none⟩

variable (forward : c.tree.Forward) (divides : c.Divides) (agree : config.PartsAgree)
  (unpaged : config.Unpaged c.schema)

include forward divides agree unpaged

/-- Root fields are planned without errors, if the first ones of their names can be planned. -/
theorem foldlM_addRootField_succeeds {selected : List Selected} (kept : ∀ s ∈ selected, c.Kept s)
    (reached : ∀ s ∈ selected, c.Reaches s) (able : ∀ s ∈ Selected.firsts selected, c.Plans config s) :
    ∃ p, selected.foldlM (c.addRootField rootType) { fresh := c.schema.fresh } = .ok p ∧
      p.errors = [] := by
  induction selected using List.reverseRecOn with
  | nil => exact ⟨_, rfl, rfl⟩
  | append_singleton rest s ih =>
    have before : ∀ a ∈ rest, a ∈ rest ++ [s] := fun a ha => List.mem_append_left _ ha
    have last : s ∈ rest ++ [s] := List.mem_append_right _ List.mem_cons_self
    obtain ⟨p, hfold, none⟩ := ih (fun a ha => kept a (before a ha)) (fun a ha => reached a (before a ha))
      fun a ha => able a ((Selected.firsts_grows rest s).subset ha)
    obtain ⟨above, planned⟩ :=
      foldlM_addRootField_ok built onSchema (fun a ha => kept a (before a ha)) hfold
    rw [List.foldlM_append, hfold]
    by_cases old : p.fields.any (·.name == s.node.name) = true
    · exact ⟨p, bind_ok.mpr ⟨p, rfl, bind_ok.mpr ⟨p, if_pos old, rfl⟩⟩, none⟩
    · have first : s ∈ Selected.firsts (rest ++ [s]) := by
        rw [Selected.firsts_append, Selected.addFirst, if_neg]
        · exact List.mem_append_right _ List.mem_cons_self
        · rwa [← any_iff_of_planned (planned none)]
      obtain ⟨field, fresh, hplan⟩ : Succeeds (c.planRoot rootType s) p.fresh :=
        planRoot_succeeds built onSchema forward divides agree unpaged (reached s last) (kept s last)
          above (able s first)
      have step : c.addRootField rootType p s =
          .ok { p with fresh := fresh, fields := p.fields ++ [field] } := by
        unfold addRootField
        rw [if_neg old, show (c.planRoot rootType s).run p.fresh = .ok (field, fresh) from hplan]
        rfl
      exact ⟨_, bind_ok.mpr ⟨p, rfl, bind_ok.mpr ⟨_, step, rfl⟩⟩, none⟩

/-- An operation is planned without errors just if its roots can be expanded and the first root fields
of their names can be planned. -/
theorem plan_clean_iff (bare : c.tree.Bare) : (∃ op, c.plan = .ok op ∧ op.errors = []) ↔
    (∃ rootType, c.schema.rootType c.tree.kind = some rootType) ∧
      (∀ root ∈ c.tree.roots, ∃ ss, c.expandRoot root = .ok ss) ∧
        ∀ s ∈ Selected.firsts c.rootSelected, c.Plans config s := by
  have kept : ∀ s ∈ c.rootSelected, c.Kept s := fun s => kept_of_rootSelected built onSchema
  constructor
  · rintro ⟨op, hop, none⟩
    obtain ⟨rootType, hroot, expanded, planned⟩ := plan_clean built onSchema hop none
    refine ⟨⟨rootType, hroot⟩, expanded, fun s hs => ?_⟩
    obtain ⟨field, -, n, n', outcome⟩ := exists_of_forall₂ planned.flip hs
    have selected := Selected.mem_of_mem_firsts hs
    exact outcome.plannable built onSchema forward divides agree bare unpaged (.root selected)
      (kept s selected)
  · rintro ⟨⟨rootType, hroot⟩, expanded, able⟩
    obtain ⟨p, hfold, none⟩ : ∃ p, c.rootSelected.foldlM (c.addRootField rootType)
        { fresh := c.schema.fresh } = .ok p ∧ p.errors = [] :=
      foldlM_addRootField_succeeds built onSchema forward divides agree unpaged kept
        (fun _ => .root) able
    refine ⟨⟨c.tree.kind, p.fields, p.errors⟩, ?_, none⟩
    unfold plan
    rw [hroot]
    exact bind_ok.mpr ⟨p, (foldlM_addRoot_eq expanded _).trans hfold, rfl⟩

end Operations

/-! ## One pass or two -/

/-- The planner of a request in one pass or in two. -/
def inPasses (c : Planner) (separately : Bool) : Planner :=
  { c with options := { c.options with separately := separately } }

section Passes

variable (c) (separately : Bool)

theorem keep_inPasses (path : Path) (location : Location) (id : NodeId) (uses : List DirectiveUse) :
    (c.inPasses separately).keep path location id uses = c.keep path location id uses := by
  induction uses generalizing id with
  | nil => rfl
  | cons use uses ih =>
    rw [keep, keep]
    refine bind_congr fun next => ?_
    cases next with
    | none => rfl
    | some next => exact ih next

theorem expandNode_inPasses (pass : Pass) (path : Path) (fuel : Nat) (spreading : List String) :
    (c.inPasses separately).expandNode pass path fuel spreading =
      c.expandNode pass path fuel spreading := by
  induction fuel generalizing spreading with
  | zero => rfl
  | succ fuel ih =>
    funext id
    rw [expandNode, expandNode]
    simp only [keep_inPasses, ih]
    rfl

theorem expand_inPasses (pass : Pass) (path : Path) (ids : List NodeId) :
    (c.inPasses separately).expand pass path ids = c.expand pass path ids := by
  unfold expand
  rw [expandNode_inPasses]
  rfl

theorem expandRoot_inPasses (root : NodeId) :
    (c.inPasses separately).expandRoot root = c.expandRoot root := by
  unfold expandRoot
  rw [expand_inPasses]

theorem rootSelected_inPasses : (c.inPasses separately).rootSelected = c.rootSelected := by
  unfold rootSelected
  simp only [expandRoot_inPasses]
  rfl

theorem wanted_inPasses (pass : Pass) (depth : Nat) (isRoot : Bool) (s : Selected)
    (lineage : List NodeId) (path : Path) :
    (c.inPasses separately).wanted config pass depth isRoot s lineage path =
      c.wanted config pass depth isRoot s lineage path := by
  induction depth generalizing isRoot s lineage path with
  | zero => rfl
  | succ depth ih =>
    rw [wanted, wanted]
    simp only [ih, expand_inPasses]
    rfl

theorem plans_inPasses (s : Selected) : (c.inPasses separately).Plans config s ↔ c.Plans config s := by
  unfold Plans
  simp only [wanted_inPasses]
  rfl

variable {c separately}

theorem reaches_of_inPasses {s : Selected} (h : (c.inPasses separately).Reaches s) : c.Reaches s := by
  induction h with
  | root hs => exact .root (rootSelected_inPasses c separately ▸ hs)
  | child _ hparts hs ih => exact .child ih (expand_inPasses c separately .. ▸ hparts) hs

theorem divides_inPasses (h : c.Divides) : (c.inPasses separately).Divides where
  filled s path hs := by
    rw [expand_inPasses]
    exact h.filled s path (reaches_of_inPasses hs)
  distinct s path selected hs := by
    rw [expand_inPasses]
    exact h.distinct s path selected (reaches_of_inPasses hs)

end Passes

end Planner

/-! ## Results -/

/-- Two root fields have one name and give the same on two values, or both fail. -/
def PlannedField.Agrees {σ : Type} (services : Services σ) (data data' : Json)
    (field field' : PlannedField) : Prop :=
  field.name = field'.name ∧
    ∃ r, Computes (field.run services data) r ∧ Computes (field'.run services data') r

/-- Adds the value of a root field to an object, if it contributes one. -/
def PlannedField.addTo {σ : Type} (services : Services σ) (data : Json) (members : Dict Json)
    (field : PlannedField) : Exec σ (Dict Json) := do
  match ← field.run services data with
  | some v => pure (members.insert field.name v)
  | none => pure members

/-- Root fields that agree one by one make the same object, or both fail. -/
theorem runFields_agree {σ : Type} {services : Services σ} {data data' : Json}
    {fields fields' : List PlannedField}
    (h : List.Forall₂ (PlannedField.Agrees services data data') fields fields') :
    ∃ r, Computes (runFields services fields data) r ∧ Computes (runFields services fields' data') r := by
  suffices members : ∀ members, ∃ r,
      Computes (fields.foldlM (PlannedField.addTo services data) members) r ∧
        Computes (fields'.foldlM (PlannedField.addTo services data') members) r by
    obtain ⟨r, first, second⟩ := members []
    exact ⟨r.map Json.obj, first.map Json.obj, second.map Json.obj⟩
  induction h with
  | nil => exact fun members => ⟨some members, .pure _, .pure _⟩
  | @cons field field' _ _ hfirst _ ih =>
    intro members
    obtain ⟨name, r, run, run'⟩ := hfirst
    rw [List.foldlM_cons, List.foldlM_cons]
    cases r with
    | none => exact ⟨none, (run.stop _).stop _, (run'.stop _).stop _⟩
    | some v =>
      rw [PlannedField.addTo, PlannedField.addTo, run.eq_pure, run'.eq_pure, name]
      cases v with
      | none => exact ih members
      | some v => exact ih (members.insert field'.name v)

/-- Root fields that do not fail make an object. -/
theorem runFields_object {σ : Type} {services : Services σ} {data : Json} {fields : List PlannedField}
    (h : ∀ field ∈ fields, ∃ r, Computes (field.run services data) (some r)) :
    ∃ v, Computes (runFields services fields data) (some v) := by
  suffices members : ∀ members, ∃ out,
      Computes (fields.foldlM (PlannedField.addTo services data) members) (some out) by
    obtain ⟨out, run⟩ := members []
    exact ⟨.obj out, run.map Json.obj⟩
  induction fields with
  | nil => exact fun members => ⟨members, .pure _⟩
  | cons field fields ih =>
    intro members
    obtain ⟨⟨r, run⟩, rest⟩ := List.forall_mem_cons.mp h
    rw [List.foldlM_cons, PlannedField.addTo, run.eq_pure]
    cases r with
    | none => exact ih rest members
    | some v => exact ih rest (members.insert field.name v)

/-- An operation is planned without errors in one pass just if it is planned without errors in two. Then
the plans give the same object, or both fail, where members are read from objects and from null only.
No single object is paged, parts of one name are read along one path, and of the selections that are kept
in a place each object and list keeps one, those of one output name select one field, and no output name
is the name of a part. The services are functions that do not tell apart what is equal. -/
theorem Planner.two_passes_agree {request : Request} (built : config.build = .ok c.schema)
    (requested : request.build c.schema = .ok c.tree) (unpaged : config.Unpaged c.schema)
    (agree : config.PartsAgree) (divides : c.Divides) :
    ((∃ op, (c.inPasses false).plan = .ok op ∧ op.errors = []) ↔
      ∃ op, (c.inPasses true).plan = .ok op ∧ op.errors = []) ∧
    ∀ one two, (c.inPasses false).plan = .ok one → one.errors = [] →
      (c.inPasses true).plan = .ok two → two.errors = [] →
      ∀ {σ : Type} (services : Services σ) (answers : Answers), services.AnswerBy answers →
        answers.Respect → ∀ data, (∀ s ∈ c.rootSelected, ∀ w,
          c.wanted config .services (c.options.maxDepth + 1) true s [] [s.node.name] = .ok (some w) →
            w.Readable config answers false data) →
        ∃ r, Computes (runFields services one.fields data) r ∧
          Computes (runFields services two.fields data) r := by
  have onSchema := Request.build_over (SchemaConfig.indexed built) requested
  have forward := Request.build_forward requested
  have bare := (Request.build_sealed requested).bare
  have clean := fun b => plan_clean_iff (c := c.inPasses b) built onSchema forward
    (divides_inPasses divides) agree unpaged bare
  simp only [rootSelected_inPasses, expandRoot_inPasses, plans_inPasses] at clean
  refine ⟨(clean false).trans (clean true).symm, ?_⟩
  intro one two hone cleanOne htwo cleanTwo σ services answers hs respect data readable
  obtain ⟨-, -, able⟩ := (clean false).mp ⟨one, hone, cleanOne⟩
  obtain ⟨rootType, hroot, expanded, first⟩ :=
    plan_clean (c := c.inPasses false) built onSchema hone cleanOne
  obtain ⟨rootType', hroot', -, second⟩ :=
    plan_clean (c := c.inPasses true) built onSchema htwo cleanTwo
  obtain rfl : rootType = rootType' := Option.some.inj (hroot.symm.trans hroot')
  rw [rootSelected_inPasses] at first second
  refine runFields_agree (forall₂_of_left first second ?_)
  rintro s hs' field field' ⟨n, n', outcome⟩ ⟨m, m', outcome'⟩
  have selected := Selected.mem_of_mem_firsts hs'
  obtain ⟨w, wanted, -⟩ := able s hs'
  have computes : ∀ {b n n' field}, RootOutcome config (c.inPasses b) rootType s n n' field →
      Computes (field.run services data) ((w.value config answers false data).map some) := by
    intro b n n' field outcome
    have root : s ∈ (c.inPasses b).rootSelected := by rwa [rootSelected_inPasses]
    refine outcome.computes (c := c.inPasses b) built onSchema forward (divides_inPasses divides) agree
      bare unpaged (.root root) (kept_of_rootSelected (c := c.inPasses b) built onSchema root) hs respect ?_
        (readable s selected w wanted)
    rw [wanted_inPasses]
    exact wanted
  exact ⟨outcome.name_eq.trans outcome'.name_eq.symm, _, computes outcome, computes outcome'⟩

end Agreement

/-! ## Two zeros in holders

A holder of `0.0` that hands it to a service, and below what the service gives a holder of `-0.0` that
does the same. In one pass the calls are those of two constants, which are equal as JSON values, so the
plan reads the inner number from the outer one. In two passes the shape pass materializes the outer zero,
and both calls are made.
-/

namespace Held

/-- A field that holds a zero. -/
def holder (zero : Binary64) : FieldConfig :=
  .full {
    ty := "Holder"
    path := none
    service := none
    constant := some (.obj [("a", .double zero)])
    arguments := []
    useArgumentsFrom := none
    sort := none
    paging := none
    roles := []
    description := none }

/-- The fields of a query, of a holder and of a number. -/
def config : SchemaConfig where
  query := "Query"
  mutation := none
  types := [
    ("Query", ⟨none, [("outer", holder ⟨false, 0⟩)]⟩),
    ("Holder", ⟨none, [("a", .short "Float"), ("item", Zeros.called "Number" (.str "a"))]⟩),
    ("Number", ⟨none, [("name", .short "String"), ("inner", holder ⟨true, 0⟩)]⟩)]
  inputs := []
  enums := []

open Zeros (select) in
/-- The name of the number below the number. -/
def request : Request :=
  ⟨.query, [select "outer" [select "item" [select "inner" [select "item" [select "name" []]]]]], []⟩

theorem build_isOk : config.build.isOk = true := by decide +kernel

def schema : Schema := okOf config.build build_isOk

theorem built : config.build = .ok schema := eq_okOf _ _

theorem request_isOk : (request.build schema).isOk = true := by decide +kernel

def tree : SelectionTree := okOf (request.build schema) request_isOk

theorem requested : request.build schema = .ok tree := eq_okOf _ _

/-- The request, to be planned in one pass or in two. -/
def planner : Planner where
  schema := schema
  tree := tree
  assignment := []
  authorizer := .all
  registered := none
  options := {}

theorem unpaged : config.Unpaged schema := SchemaConfig.unpaged_of_types (by decide +kernel)

theorem partsAgree : config.PartsAgree := by
  apply SchemaConfig.partsAgree_of_reads
  have reads : config.reads = [("item", ["a"])] := by decide +kernel
  simp [reads]

theorem divides : planner.Divides :=
  Planner.divides_of_divided built (Request.build_over (SchemaConfig.indexed built) requested) (by decide +kernel)

theorem plan_isOk (separately : Bool) : (planner.inPasses separately).plan.isOk = true := by
  cases separately <;> decide +kernel

def op (separately : Bool) : PlannedOperation :=
  okOf (planner.inPasses separately).plan (plan_isOk separately)

theorem planned (separately : Bool) : (planner.inPasses separately).plan = .ok (op separately) :=
  eq_okOf _ _

theorem clean (separately : Bool) : (op separately).errors = [] := by
  apply List.isEmpty_iff.mp
  cases separately <;> decide +kernel

def root : Selected := planner.rootSelected.head (by decide +kernel)

theorem rootSelected_eq : planner.rootSelected = [root] := by
  have one : planner.rootSelected.length = 1 := by decide +kernel
  obtain ⟨s, hs⟩ := List.length_eq_one_iff.mp one
  unfold root
  simp [hs]

theorem wanted_isOk : (planner.wanted config .services (planner.options.maxDepth + 1) true root []
    [root.node.name]).isOk = true := by decide +kernel

def wanted : Option Wanted := okOf _ wanted_isOk

/-- Members can be read where the root field has a value. -/
theorem readable {answers : Answers} (h : wanted.all fun w =>
    (w.value config answers false .null).isSome) : ∀ s ∈ planner.rootSelected, ∀ w,
      planner.wanted config .services (planner.options.maxDepth + 1) true s [] [s.node.name] =
        .ok (some w) → w.Readable config answers false .null := by
  intro s hs w hw
  rw [rootSelected_eq] at hs
  cases List.mem_singleton.mp hs
  have same : wanted = some w := Except.ok.inj ((eq_okOf _ wanted_isOk).symm.trans hw)
  rw [same] at h
  obtain ⟨v, hv⟩ := Option.isSome_iff_exists.mp h
  exact Wanted.readable_of_value hv

/-- The result where the number below the number has a name. -/
def named (name : String) : Json :=
  .obj [("outer", .obj [("item", .obj [("inner", .obj [("item", .obj [("name", .str name)])])])])]

def ran (answers : Answers) (separately : Bool) : Option Json :=
  (runFields (Zeros.services answers) (op separately).fields .null ()).1.toOption

theorem of_ran (answers : Answers) (separately : Bool) {v : Json}
    (h : (ran answers separately).any (· == v) = true) : ∃ u,
      (runFields (Zeros.services answers) (op separately).fields .null ()).1 = .ok u ∧
        (u == v) = true := by
  unfold ran at h
  generalize (runFields (Zeros.services answers) (op separately).fields .null ()).1 = r at h
  match r with
  | .ok u => exact ⟨u, rfl, h⟩

end Held

open Held in
theorem two_passes_agree_zeros : ∃ v,
    (runFields (Zeros.services Zeros.sameAnswers) (op false).fields .null ()).1 = .ok v ∧
      (runFields (Zeros.services Zeros.sameAnswers) (op true).fields .null ()).1 = .ok v ∧
        (v == named "zero") = true := by
  obtain ⟨-, agree⟩ := Planner.two_passes_agree (c := planner) built requested unpaged partsAgree divides
  obtain ⟨r, first, second⟩ := agree (op false) (op true) (planned false) (clean false) (planned true)
    (clean true) (Zeros.services Zeros.sameAnswers) Zeros.sameAnswers (Zeros.answerBy _)
    (fun _ _ _ _ _ => rfl) .null (readable (by decide +kernel))
  obtain ⟨v, hv, same⟩ := of_ran Zeros.sameAnswers false (v := named "zero")
    (by decide +kernel)
  cases r with
  | none =>
    obtain ⟨e, he⟩ := first ()
    rw [he] at hv
    cases hv
  | some u =>
    rw [first ()] at hv
    obtain rfl : u = v := Except.ok.inj hv
    exact ⟨u, congrArg Prod.fst (first ()), congrArg Prod.fst (second ()), same⟩

open Held in
/-- Where a service tells arguments apart that are equal as JSON values, one pass may give another object
than two. -/
theorem zeros_told_apart_in_two_passes :
    config.build = .ok planner.schema ∧ request.build planner.schema = .ok planner.tree ∧
      config.Unpaged planner.schema ∧ config.PartsAgree ∧ planner.Divides ∧
      (planner.inPasses false).plan = .ok (op false) ∧ (op false).errors = [] ∧
      (planner.inPasses true).plan = .ok (op true) ∧ (op true).errors = [] ∧
      (Zeros.services Zeros.answers).AnswerBy Zeros.answers ∧
      (∀ s ∈ planner.rootSelected, ∀ w,
        planner.wanted config .services (planner.options.maxDepth + 1) true s [] [s.node.name] =
          .ok (some w) → w.Readable config Zeros.answers false .null) ∧
      ∃ v u, (runFields (Zeros.services Zeros.answers) (op false).fields .null ()).1 = .ok v ∧
        (runFields (Zeros.services Zeros.answers) (op true).fields .null ()).1 = .ok u ∧
        (v == named "zero") = true ∧ (u == named "minus zero") = true ∧ v ≠ u := by
  obtain ⟨v, hv, zero⟩ := of_ran Zeros.answers false (v := named "zero")
    (by decide +kernel)
  obtain ⟨u, hu, minus⟩ := of_ran Zeros.answers true (v := named "minus zero")
    (by decide +kernel)
  refine ⟨built, requested, unpaged, partsAgree, divides, planned false, clean false, planned true,
    clean true, Zeros.answerBy _, readable (by decide +kernel), v, u, hv, hu, zero, minus, ?_⟩
  rintro rfl
  have differs : (ran Zeros.answers false).any (· == named "minus zero") = false := by decide +kernel
  unfold ran at differs
  rw [hv] at differs
  exact Bool.noConfusion (differs.symm.trans minus)

end FieldPlan
