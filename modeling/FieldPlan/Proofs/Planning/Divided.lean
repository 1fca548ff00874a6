import FieldPlan.Proofs.Planning.Operation
import FieldPlan.Proofs.Planning.Shaping
import FieldPlan.Proofs.Selection.Reach

/-!
# What both passes want of a request

* `Planner.Reaches` : the kept fields of the expanded selection;
* `Planner.Divides` : objects and lists keep a selection, and output names tell selections apart;
* `Planner.wanted_shaped` : then the shape pass wants what it should in the place of what is wanted;
* `Planner.wanted_whole` : where nothing is backed by services, it wants all of it;
* `Planner.wanted_sound` : what is wanted comes from described fields.
-/

namespace FieldPlan

variable {config : SchemaConfig} {c : Planner}

namespace Planner

/-! ## Conditions -/

/-- A kept field of the expanded selection. -/
inductive Reaches (c : Planner) : Selected → Prop
  | root {s : Selected} : s ∈ c.rootSelected → Reaches c s
  | child {s s' : Selected} {path : Path} {parts : List Contribution} : Reaches c s →
    c.expand .services path s.node.children = .ok parts → .node s' ∈ parts → Reaches c s'

/-- Objects and lists keep a selection, and output names tell the selections in them apart. -/
structure Divides (c : Planner) : Prop where
  filled : ∀ s path, c.Reaches s → s.field.shape ≠ .scalar →
    c.expand .services path s.node.children ≠ .ok []
  distinct : ∀ s path (selected : List Selected), c.Reaches s →
    c.expand .services path s.node.children = .ok (selected.map .node) → Selected.Distinct selected

theorem kept_of_rootSelected (built : config.build = .ok c.schema) (onSchema : c.tree.Over c.schema)
    {s : Selected} (h : s ∈ c.rootSelected) : c.Kept s := by
  obtain ⟨-, standard, -⟩ := SchemaConfig.build_ok built
  obtain ⟨root, -, hs⟩ := List.mem_flatMap.mp h
  cases hss : c.expandRoot root with
  | error e =>
    rw [hss] at hs
    cases hs
  | ok ss =>
    rw [hss] at hs
    exact expandRoot_kept standard onSchema hss hs

theorem Reaches.kept (built : config.build = .ok c.schema) (onSchema : c.tree.Over c.schema)
    {s : Selected} (h : c.Reaches s) : c.Kept s := by
  obtain ⟨-, standard, -⟩ := SchemaConfig.build_ok built
  cases h with
  | root hs => exact kept_of_rootSelected built onSchema hs
  | child _ hparts hs => exact expand_sound standard onSchema hparts (.node s) hs

/-- Whether a field is a scalar or keeps a selection, and names tell the selections in it and their
parts apart. -/
def divided (c : Planner) (n : Node) : Bool :=
  match n.field?, c.expand .services [] n.children with
  | some f, .ok parts => (f.shape == .scalar || !parts.isEmpty) && Selected.apart (parts.filterMap fun
    | .node s => some s
    | .extracted _ _ => none)
  | _, _ => true

theorem divides_of_divided (built : config.build = .ok c.schema) (onSchema : c.tree.Over c.schema)
    (h : c.tree.nodes.toList.all c.divided = true) : c.Divides := by
  have each : ∀ s path (selected : List Selected), c.Reaches s →
      c.expand .services path s.node.children = .ok (selected.map .node) →
        (s.field.shape = .scalar ∨ selected ≠ []) ∧ Selected.apart selected = true := by
    intro s path selected reached hparts
    have kept := reached.kept built onSchema
    have here : c.expand .services [] s.node.children = .ok (selected.map .node) :=
      expand_services_iff.mpr (expand_services_iff.mp hparts)
    have divided := List.all_eq_true.mp h s.node (Array.mem_toList_iff.mpr (Array.mem_of_getElem? kept.node))
    unfold Planner.divided Node.field? at divided
    rw [kept.selects, here] at divided
    have same : (selected.map Contribution.node).filterMap (fun
        | .node s => some s
        | .extracted _ _ => none) = selected := by
      rw [List.filterMap_map]
      exact List.filterMap_some
    dsimp only at divided
    rw [same] at divided
    simpa [Bool.and_eq_true, Bool.or_eq_true] using divided
  refine ⟨fun s path reached hshape hparts => ?_, fun s path selected reached hparts => ?_⟩
  · exact (each s path [] reached hparts).1.elim hshape (· rfl)
  · exact Selected.distinct_of_apart (each s path selected reached hparts).2

/-! ## Fields -/

theorem Kept.hasServices {s : Selected} (h : c.Kept s) : s.node.hasServices = s.field.hasServices := by
  simp [Node.hasServices, Node.field?, h.selects]

/-- Where no service is found below a field, none of the fields selected in it is backed by one. -/
theorem unserved_below (standard : c.schema.Standard) (onSchema : c.tree.Over c.schema)
    (forward : c.tree.Forward) {s : Selected} (kept : c.Kept s)
    (h : c.tree.hasServiceDescendants s.id = false) {path : Path} {parts : List Contribution}
    (hparts : c.expand .services path s.node.children = .ok parts) {a : Selected}
    (ha : .node a ∈ parts) : a.field.hasServices = false := by
  obtain ⟨id, hid, leads⟩ := leads_of_expand standard hparts ha
  have keptA : c.Kept a := expand_sound standard onSchema hparts (.node a) ha
  have children : c.tree.children s.id = s.node.children := by
    unfold SelectionTree.children
    rw [kept.node]
    rfl
  rw [← keptA.hasServices]
  exact SelectionTree.not_hasServices forward h (children ▸ hid) leads keptA.node

/-- The fields that a pass takes up in a field are kept, and need no service in the shape pass. -/
theorem reaches_of_expand {pass : Pass} {s : Selected} (reached : c.Reaches s) {path : Path}
    {parts : List Contribution} (h : c.expand pass path s.node.children = .ok parts) {a : Selected}
    (ha : .node a ∈ parts) : c.Reaches a ∧ (pass = .shape → a.field.hasServices = false) := by
  cases pass with
  | services => exact ⟨reached.child h ha, fun h => Pass.noConfusion h⟩
  | shape =>
    rw [expand_shape] at h
    generalize hall : c.expand .services path s.node.children = all at h
    cases all with
    | error e => cases h
    | ok all =>
      cases h
      obtain ⟨part, hpart, ha⟩ := List.mem_flatMap.mp ha
      cases part with
      | extracted field part => cases List.mem_singleton.mp ha
      | node b =>
        unfold Contribution.shaped Selected.contributions at ha
        dsimp only at ha
        split at ha
        · obtain ⟨part, -, hpart⟩ := List.mem_map.mp ha
          cases hpart
        · rename_i unserved
          cases List.mem_singleton.mp ha
          exact ⟨reached.child hall hpart, fun _ => Bool.eq_false_iff.mpr unserved⟩

def wantBelow (c : Planner) (config : SchemaConfig) (pass : Pass) (depth : Nat) (s : Selected)
    (lineage : List NodeId) (path : Path) (child : Selected) : Except PlanError (Option Wanted) :=
  c.wanted config pass depth false child (s.id :: lineage) (path.child child.node.name)

/-- Something is wanted of the objects of a field, and the shape pass wants what it should in its place:
nothing only if services are selected below the field. -/
theorem Gathers.shaped (standard : c.schema.Standard) (onSchema : c.tree.Over c.schema)
    (forward : c.tree.Forward) (divides : c.Divides) (agree : config.PartsAgree) {depth : Nat}
    {s : Selected} (reached : c.Reaches s) (kept : c.Kept s) {lineage : List NodeId} {path : Path}
    (each : ∀ {a r}, c.Reaches a → c.Kept a →
      c.wantBelow config .services depth s lineage path a = .ok r →
        ∃ w, r = some w ∧ a.Stands config c.schema.fresh w ∧ (a.field.hasServices = false →
          ∃ x, w.Shaped x ∧ c.wantBelow config .shape depth s lineage path a = .ok (some x)))
    {item : Item} {ws : List Wanted} (h : Gathers config c .services depth s lineage path item ws) :
    ws ≠ [] ∧ (s.field.hasServices = false → ∃ shaped,
      Gathers config c .shape depth s lineage path item shaped ∧ Wanted.ShapedAll shaped ws ∧
        Wanted.Accounts ws shaped ∧ (shaped = [] → c.tree.hasServiceDescendants s.id = true)) := by
  obtain ⟨parts, hparts, hws⟩ := h.gathered
  obtain ⟨selected, rfl, kepts, hshape⟩ := expand_services standard onSchema hparts
  have distinct := divides.distinct s path selected reached hparts
  obtain ⟨shaped, hshaped, shaping⟩ := Shaping.of_foldlM distinct
    (fun a ha _ => each (reached.child hparts (List.mem_map_of_mem ha)) (kepts a ha)) hws
  obtain ⟨a, ha⟩ : ∃ a, a ∈ selected := by
    refine List.exists_mem_of_ne_nil selected fun hnil => ?_
    exact divides.filled s path reached h.composite (by rw [hparts, hnil]; rfl)
  obtain ⟨w, hw, -⟩ := shaping.taken a ha
  obtain ⟨all, accounts⟩ := shaping.shapedAll distinct agree
  refine ⟨List.ne_nil_of_mem hw, fun hs => ⟨shaped, ?_, all, accounts, ?_⟩⟩
  · exact ⟨fun _ => hs, h.found, h.composite, _, hshape, hshaped⟩
  · rintro rfl
    by_contra hnone
    obtain ⟨b, hb, -, shape⟩ := shaping.each w hw
    obtain ⟨x, hx, -⟩ := shape (unserved_below standard onSchema forward kept
      (Bool.eq_false_iff.mpr hnone) hparts (List.mem_map_of_mem hb))
    cases hx

/-- All that is kept is wanted of the data, and the shape pass wants what it should in its place. -/
theorem wanted_shaped (built : config.build = .ok c.schema) (onSchema : c.tree.Over c.schema)
    (forward : c.tree.Forward) (divides : c.Divides) (agree : config.PartsAgree) (depth : Nat)
    {isRoot : Bool} {s : Selected} (reached : c.Reaches s) (kept : c.Kept s) {lineage : List NodeId}
    {path : Path} {r : Option Wanted}
    (h : c.wanted config .services depth isRoot s lineage path = .ok r) :
    ∃ w, r = some w ∧ s.Stands config c.schema.fresh w ∧ (s.field.hasServices = false →
      ∃ x, w.Shaped x ∧
        ((c.wanted config .shape depth isRoot s lineage path = .ok (some x) ∧
          (isRoot = true → ∀ item, x = .leaf item → w = .leaf item)) ∨
        isRoot = true ∧ c.wanted config .shape depth isRoot s lineage path = .ok none)) := by
  obtain ⟨described, standard, -⟩ := SchemaConfig.build_ok built
  induction depth generalizing isRoot s lineage path r with
  | zero => cases h
  | succ depth ih =>
    obtain ⟨fc, source, traits⟩ := (described _ kept.field).traits
    have stands : ∀ {item : Item} {w : Wanted}, c.item config s lineage path = .ok item →
        w.item.name = item.name → w.item.field = item.field → w.item.source = item.source →
          s.Stands config c.schema.fresh w := fun hitem hn hf hs => by
      have found := item_ok traits hitem
      exact ⟨hn.trans found.name, hf.trans found.field, fc, (hs.trans found.source).symm ▸ traits⟩
    have shapes : ∀ {item ws}, Gathers config c .services depth s lineage path item ws → _ :=
      Gathers.shaped standard onSchema forward divides agree reached kept fun {a r} reachedA keptA hr => by
        obtain ⟨w, rfl, stands, shape⟩ := ih reachedA keptA hr
        refine ⟨w, rfl, stands, fun hs => ?_⟩
        obtain ⟨x, hx, ⟨hwanted, -⟩ | ⟨hroot, -⟩⟩ := shape hs
        · exact ⟨x, hx, hwanted⟩
        · cases hroot
    cases wanted_iff.mp h with
    | served shaping => cases shaping
    | scalar _ found scalar =>
      refine ⟨_, rfl, stands found rfl rfl rfl, fun hs => ⟨_, rfl, .inl ⟨?_, fun _ _ h => h⟩⟩⟩
      exact wanted_iff.mpr (.scalar (fun _ => hs) found scalar)
    | carried _ carries => cases (keepsWhole_iff.mp carries).1
    | nothing gathers => exact absurd rfl (shapes gathers).1
    | @object item _ gathers _ hshape | @list item _ gathers _ hshape =>
      refine ⟨_, rfl, stands gathers.found rfl rfl rfl, fun hs => ?_⟩
      obtain ⟨shaped, instead, all, accounts, served⟩ := (shapes gathers).2 hs
      cases shaped with
      | nil =>
        refine ⟨.leaf item, ⟨[], all, accounts, rfl⟩, ?_⟩
        cases isRoot with
        | true => exact .inr ⟨rfl, wanted_iff.mpr (.nothing instead (by simp [keepsWhole]))⟩
        | false =>
          have keeps := keepsWhole_iff.mpr ⟨rfl, rfl, served rfl⟩
          exact .inl ⟨wanted_iff.mpr (.carried instead keeps), fun h => Bool.noConfusion h⟩
      | cons x shaped =>
        refine ⟨_, ⟨x :: shaped, all, accounts, rfl⟩, .inl ⟨?_, fun _ item' h => ?_⟩⟩
        · rw [instead.wanted, hshape]
          rfl
        · cases h

/-- Where something is wanted of each field, something is wanted of all. -/
theorem foldlM_addWanted_ne_nil {want : Selected → Except PlanError (Option Wanted)}
    {selected : List Selected} (each : ∀ s ∈ selected, ∀ r, want s = .ok r → r.isSome = true)
    (nonempty : selected ≠ []) {ws : List Wanted}
    (h : (selected.map .node).foldlM (addWanted want) [] = .ok ws) : ws ≠ [] := by
  rw [List.foldlM_map] at h
  refine foldlM_ok (fun done ws => done ≠ [] → ws ≠ []) h (fun h => absurd rfl h) ?_ nonempty
  intro done s rest ws ws' hsplit _ hadd _
  unfold addWanted at hadd
  dsimp only at hadd
  split at hadd
  · rename_i taken
    cases hadd
    rintro rfl
    cases taken
  · obtain ⟨r, hr, hadd⟩ := bind_ok.mp hadd
    obtain ⟨w, rfl⟩ := Option.isSome_iff_exists.mp (each s (by simp [hsplit]) r hr)
    cases hadd
    exact List.append_ne_nil_of_right_ne_nil ws (List.cons_ne_nil _ _)

/-- Where no service is found below a field, a pass takes up the fields that are selected in it. -/
theorem expand_unserved (standard : c.schema.Standard) (onSchema : c.tree.Over c.schema)
    (forward : c.tree.Forward) {pass : Pass} {s : Selected} (kept : c.Kept s)
    (h : pass = .shape → c.tree.hasServiceDescendants s.id = false) {path : Path}
    {parts : List Contribution} (hparts : c.expand pass path s.node.children = .ok parts) :
    ∃ selected : List Selected, parts = selected.map .node ∧
      c.expand .services path s.node.children = .ok parts := by
  cases pass with
  | services =>
    obtain ⟨selected, rfl, -⟩ := expand_services standard onSchema hparts
    exact ⟨selected, rfl, hparts⟩
  | shape =>
    rw [expand_shape] at hparts
    generalize hall : c.expand .services path s.node.children = all at hparts
    cases all with
    | error e => cases hparts
    | ok all =>
      obtain ⟨selected, rfl, -⟩ := expand_services standard onSchema hall
      have same : (selected.map .node).flatMap Contribution.shaped = selected.map .node := by
        rw [List.flatMap_map, List.map_eq_flatMap]
        refine List.flatMap_congr fun a ha => if_neg ?_
        rw [unserved_below standard onSchema forward kept (h rfl) hall (List.mem_map_of_mem ha)]
        exact Bool.false_ne_true
      cases hparts
      exact ⟨selected, same, congrArg Except.ok same.symm⟩

/-- Below a root field, something is wanted of each field that a pass takes up. -/
theorem wanted_isSome (built : config.build = .ok c.schema) (onSchema : c.tree.Over c.schema)
    (forward : c.tree.Forward) (divides : c.Divides) (depth : Nat) {pass : Pass} {s : Selected}
    (reached : c.Reaches s) (kept : c.Kept s) (unserved : pass = .shape → s.field.hasServices = false)
    {lineage : List NodeId} {path : Path} {r : Option Wanted}
    (h : c.wanted config pass depth false s lineage path = .ok r) : r.isSome = true := by
  obtain ⟨-, standard, -⟩ := SchemaConfig.build_ok built
  induction depth generalizing s lineage path r with
  | zero => cases h
  | succ depth ih =>
    cases wanted_iff.mp h with
    | served shaping served => cases (unserved shaping).symm.trans served
    | scalar | carried | object | list => rfl
    | nothing gathers drops =>
      obtain ⟨parts, hparts, hws⟩ := gathers.gathered
      have hnone : pass = .shape → c.tree.hasServiceDescendants s.id = false := by
        simpa [keepsWhole] using drops
      obtain ⟨selected, rfl, hall⟩ := expand_unserved standard onSchema forward kept hnone hparts
      refine absurd rfl (foldlM_addWanted_ne_nil (fun a ha r hr => ?_) (fun hnil => ?_) hws)
      · obtain ⟨reachedA, unservedA⟩ := reaches_of_expand reached hparts (List.mem_map_of_mem ha)
        exact ih reachedA (expand_sound standard onSchema hparts (.node a) (List.mem_map_of_mem ha))
          unservedA hr
      · exact divides.filled s path reached gathers.composite (by rw [hall, hnil]; rfl)

/-- Where no field at or below a field is backed by a service, both passes want the same of it. -/
theorem wanted_whole (standard : c.schema.Standard) (onSchema : c.tree.Over c.schema)
    (bare : c.tree.Bare) (depth : Nat) {isRoot : Bool} {s : Selected} (kept : c.Kept s)
    (unserved : ∀ next n, Relation.ReflTransGen c.tree.Leads s.id next → c.tree.node? next = some n →
      n.hasServices = false) {lineage : List NodeId} {path : Path} :
    c.wanted config .shape depth isRoot s lineage path =
      c.wanted config .services depth isRoot s lineage path := by
  induction depth generalizing isRoot s lineage path with
  | zero => rfl
  | succ depth ih =>
    have own : s.field.hasServices = false :=
      kept.hasServices.symm.trans (unserved s.id s.node .refl kept.node)
    have nothing : c.tree.hasServiceDescendants s.id = false := by
      by_contra hdescendants
      obtain ⟨child, hchild, next, n, path, hn, served⟩ :=
        SelectionTree.findsServices_sound (Bool.not_eq_false _ ▸ hdescendants)
      have below : c.tree.Reaches s.id child := .child kept.node (by
        rwa [SelectionTree.children, kept.node] at hchild)
      have leads := Relation.ReflTransGen.mono (fun _ _ h => h.leads bare) _ _
        (Relation.ReflTransGen.head below path)
      exact Bool.false_ne_true ((unserved next n leads hn).symm.trans served)
    rw [Planner.wanted, Planner.wanted, if_neg (by simp [own]), if_neg (by simp), nothing]
    refine bind_congr fun item => ?_
    by_cases hscalar : s.field.shape = .scalar
    · rw [if_pos hscalar, if_pos hscalar]
    · rw [if_neg hscalar, if_neg hscalar, expand_shape]
      cases hparts : c.expand .services path s.node.children with
      | error e => rfl
      | ok parts =>
        obtain ⟨selected, rfl, kepts, -⟩ := expand_services standard onSchema hparts
        have below : ∀ a ∈ selected, ∀ next n, Relation.ReflTransGen c.tree.Leads a.id next →
            c.tree.node? next = some n → n.hasServices = false := by
          intro a ha next n leads
          obtain ⟨id, hid, leads'⟩ := leads_of_expand standard hparts (List.mem_map_of_mem ha)
          refine unserved next n (.head (.child kept.node ?_ hid) (leads'.trans leads))
          rw [Node.spread?, kept.selects]
        have same : (selected.map .node).flatMap Contribution.shaped = selected.map .node := by
          rw [List.flatMap_map, List.map_eq_flatMap]
          refine List.flatMap_congr fun a ha => if_neg ?_
          rw [← (kepts a ha).hasServices, below a ha a.id a.node .refl (kepts a ha).node]
          exact Bool.false_ne_true
        have folds : (selected.map .node).foldlM (addWanted
              (c.wantBelow config .shape depth s lineage path)) [] =
            (selected.map .node).foldlM (addWanted
              (c.wantBelow config .services depth s lineage path)) [] := by
          refine foldlM_congr (fun part hpart ws => ?_) []
          obtain ⟨a, ha, rfl⟩ := List.mem_map.mp hpart
          unfold addWanted wantBelow
          dsimp only
          rw [ih (kepts a ha) (below a ha)]
        show List.foldlM (addWanted (c.wantBelow config .shape depth s lineage path)) []
            (List.flatMap Contribution.shaped (selected.map .node)) >>= _ =
          List.foldlM (addWanted (c.wantBelow config .services depth s lineage path)) []
            (selected.map .node) >>= _
        rw [same, folds]
        simp

end Planner

/-! ## Sources and types -/

/-- No single object is paged. -/
def SchemaConfig.Unpaged (config : SchemaConfig) (schema : Schema) : Prop :=
  ∀ f ∈ schema.fields, f.shape = .object → ∀ d, config.field? f.owner f.name = some (.full d) →
    d.paging = none

theorem SchemaConfig.unpaged_of_types {schema : Schema}
    (h : config.types.all fun (_, t) => t.fields.all fun
      | (_, .full d) => d.paging.isNone
      | (_, .short _) => true) : config.Unpaged schema := by
  intro f _ _ d hd
  obtain ⟨t, ht, hd⟩ := Option.bind_eq_some_iff.mp hd
  have fields := List.all_eq_true.mp h _ (Dict.mem_of_find? ht)
  simpa using List.all_eq_true.mp fields _ (Dict.mem_of_find? hd)

theorem FieldConfig.arrangement_unpaged {fc : FieldConfig}
    (h : ∀ d, fc = .full d → d.paging = none) {arguments : Dict Json} {a : Arrangement}
    (ha : fc.arrangement? arguments = some a) (order : a.order = []) : a = {} := by
  cases fc with
  | short ty =>
    cases ha
    rfl
  | full d =>
    unfold FieldConfig.arrangement? at ha
    dsimp only at ha
    rw [h d rfl] at ha
    obtain ⟨keys, -, ha⟩ := Option.bind_eq_some_iff.mp ha
    cases ha
    exact congrArg (Arrangement.mk · none none) order

theorem FieldDef.element_of_list {f : FieldDef} (h : f.shape = .list) :
    ∃ t, f.ty.element? = some t ∧ t.Flat := by
  obtain ⟨isList, -⟩ := Bool.and_eq_true_iff.mp (selectsList_of_list h)
  obtain ⟨t, ht⟩ := Option.isSome_iff_exists.mp isList
  exact ⟨t, ht, (ty_of_list h).2 t ht⟩

/-- Where no single object is paged, objects that are not sorted are as they come. -/
theorem Planner.Selects.arrangement_of_object (built : config.build = .ok c.schema)
    (unpaged : config.Unpaged c.schema) {pass : Pass} {s : Selected} {item : Item}
    (h : Selects config c pass s item) (hshape : s.field.shape = .object) {a : Arrangement}
    (ha : item.arrangement = some a) (order : a.order = []) : a = {} := by
  obtain ⟨fc, source, traits, found⟩ := h.described built
  refine FieldConfig.arrangement_unpaged (fun d hd => ?_) (found.arrangement.symm.trans ha) order
  exact unpaged _ h.kept.field hshape d (hd ▸ traits.found)

/-- What is wanted of the data comes from described fields. -/
theorem Planner.wanted_sound (built : config.build = .ok c.schema) (onSchema : c.tree.Over c.schema)
    (unpaged : config.Unpaged c.schema) (agree : config.PartsAgree) {depth : Nat} {isRoot : Bool}
    {s : Selected} (kept : c.Kept s) {lineage : List NodeId} {path : Path} {w : Wanted}
    (h : c.wanted config .services depth isRoot s lineage path = .ok (some w)) : w.Sound := by
  obtain ⟨-, standard, -⟩ := SchemaConfig.build_ok built
  have own : ∀ {s item}, Selects config c .services s item →
      item.Sound ∧ item.ty = s.field.ty := by
    intro s item selects
    obtain ⟨fc, source, traits, found⟩ := selects.described built
    refine ⟨⟨found.source ▸ traits.plain, fun service path hpath => ?_⟩, found.ty⟩
    rw [found.source] at service hpath ⊢
    rw [found.field]
    exact agree.mem_partPaths traits service hpath
  refine wanted_induction standard onSchema (fun h => Pass.noConfusion h) ?_ ?_ ?_ depth kept h
  · intro s item arrangement selects
    obtain ⟨⟨plain, complete⟩, -⟩ := own selects
    exact ⟨plain, complete⟩
  · intro s item ws selects hshape all
    obtain ⟨sound, ty⟩ := own selects
    exact ⟨sound, ty ▸ (FieldDef.ty_of_object hshape).1,
      fun a => selects.arrangement_of_object built unpaged hshape, Wanted.soundAll_iff.mpr all⟩
  · intro s item ws selects hshape all
    obtain ⟨sound, ty⟩ := own selects
    exact ⟨sound, ty ▸ (FieldDef.ty_of_list hshape).1, ty ▸ FieldDef.element_of_list hshape,
      Wanted.soundAll_iff.mpr all⟩

end FieldPlan
