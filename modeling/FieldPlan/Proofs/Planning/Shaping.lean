import FieldPlan.Proofs.Planning.Wanting
import FieldPlan.Proofs.Planning.Flattening
import FieldPlan.Proofs.Wanted.Shaped

/-!
# What both passes want of selections

* `Planner.leads_of_expand` : nodes lead to what they expand to;
* `Selected.Stands`, `Selected.Distinct` : what is wanted of a selected field, and selections that output
  names tell apart;
* `Shaping` : what both passes want of such selections (`Shaping.shapedAll`).
-/

namespace FieldPlan

variable {config : SchemaConfig} {c : Planner}

/-! ## Expansions -/

namespace Planner

/-- Nodes lead to what they expand to. -/
theorem leads_of_expand (standard : c.schema.Standard) {path : Path} {ids : List NodeId}
    {parts : List Contribution} (h : c.expand .services path ids = .ok parts) {s : Selected}
    (hs : .node s ∈ parts) : ∃ id ∈ ids, Relation.ReflTransGen c.tree.Leads id s.id := by
  obtain ⟨ss, flat, rfl⟩ := expand_services_iff.mp h
  obtain ⟨s', hs', same⟩ := List.mem_map.mp hs
  cases same
  exact flat.leads standard.inPlace s hs'

/-- An expansion for the service pass contributes kept fields, and for the shape pass what these
contribute to it. -/
theorem expand_services (standard : c.schema.Standard) (onSchema : c.tree.Over c.schema) {path : Path}
    {ids : List NodeId} {parts : List Contribution} (h : c.expand .services path ids = .ok parts) :
    ∃ selected : List Selected, parts = selected.map .node ∧ (∀ s ∈ selected, c.Kept s) ∧
      c.expand .shape path ids = .ok (selected.flatMap (·.contributions .shape)) := by
  have sound := expand_sound standard onSchema h
  obtain ⟨selected, rfl⟩ : ∃ selected : List Selected, parts = selected.map .node := by
    clear h
    induction parts with
    | nil => exact ⟨[], rfl⟩
    | cons part parts ih =>
      obtain ⟨hpart, hparts⟩ := List.forall_mem_cons.mp sound
      obtain ⟨selected, rfl⟩ := ih hparts
      cases part with
      | node s => exact ⟨s :: selected, rfl⟩
      | extracted field part => cases hpart.1
  refine ⟨selected, rfl, fun s hs => sound (.node s) (List.mem_map_of_mem hs), ?_⟩
  rw [expand_shape, h]
  exact congrArg Except.ok (List.flatMap_map ..)

end Planner

/-! ## Parts -/

theorem Resolve.mem_paths {source : Resolve} {field : String} {path : List String}
    (h : path ∈ source.partPaths field) : path ∈ source.paths := by
  cases source with
  | service name method args => exact (mem_foldl_addPath h).resolve_left List.not_mem_nil
  | _ => cases h

/-- Each path that is handed on has a part under its name. -/
theorem exists_part {field : String} {paths known : List (List String)} {path : List String}
    (h : path ∈ known ∨ path ∈ paths) :
    ∃ part ∈ paths.foldl (addPath field) known, extractedName field part = extractedName field path := by
  induction paths generalizing known path with
  | nil => exact ⟨path, h.resolve_right List.not_mem_nil, rfl⟩
  | cons first rest ih =>
    rw [List.foldl_cons]
    have step : path ∈ rest ∨ ∃ part ∈ addPath field known first,
        extractedName field part = extractedName field path := by
      unfold addPath
      split
      · rename_i hold
        rcases h with h | h
        · exact .inr ⟨path, h, rfl⟩
        · rcases List.mem_cons.mp h with rfl | h
          · obtain ⟨part, hpart, hname⟩ := List.any_eq_true.mp hold
            exact .inr ⟨part, hpart, by simpa using hname⟩
          · exact .inl h
      · rcases h with h | h
        · exact .inr ⟨path, List.mem_append_left _ h, rfl⟩
        · rcases List.mem_cons.mp h with rfl | h
          · exact .inr ⟨path, List.mem_append_right _ List.mem_cons_self, rfl⟩
          · exact .inl h
    rcases step with h | ⟨part, hpart, hname⟩
    · exact ih (.inr h)
    · obtain ⟨other, hother, same⟩ := ih (.inl hpart)
      exact ⟨other, hother, same.trans hname⟩

/-- Service calls whose parts have one name read one path. -/
def SchemaConfig.PartsAgree (config : SchemaConfig) : Prop :=
  ∀ owner name source owner' name' source', config.source? owner name = some source →
    config.source? owner' name' = some source' → source.isService = true → source'.isService = true →
      ∀ path ∈ source.paths, ∀ path' ∈ source'.paths,
        extractedName name path = extractedName name' path' → path = path'

/-- The paths that service calls read, under the names of their fields. -/
def SchemaConfig.reads (config : SchemaConfig) : List (String × List String) :=
  config.types.flatMap fun (owner, t) => t.fields.flatMap fun (name, _) =>
    match config.source? owner name with
    | some source => if source.isService then source.paths.map fun path => (name, path) else []
    | none => []

theorem SchemaConfig.mem_reads {owner name : String} {source : Resolve}
    (h : config.source? owner name = some source) (hs : source.isService = true) {path : List String}
    (hpath : path ∈ source.paths) : (name, path) ∈ config.reads := by
  obtain ⟨fc, hfc, -⟩ := Option.bind_eq_some_iff.mp h
  obtain ⟨t, ht, hfc⟩ := Option.bind_eq_some_iff.mp hfc
  refine List.mem_flatMap.mpr ⟨_, Dict.mem_of_find? ht, List.mem_flatMap.mpr ⟨_, Dict.mem_of_find? hfc, ?_⟩⟩
  dsimp only
  rw [h]
  dsimp only
  rw [if_pos hs]
  exact List.mem_map_of_mem hpath

theorem SchemaConfig.partsAgree_of_reads
    (h : ∀ part ∈ config.reads, ∀ part' ∈ config.reads,
      extractedName part.1 part.2 = extractedName part'.1 part'.2 → part.2 = part'.2) :
    config.PartsAgree := fun _ _ _ _ _ _ found found' hs hs' _ hpath _ hpath' =>
  h _ (mem_reads found hs hpath) _ (mem_reads found' hs' hpath')

/-- The part of a field along a path that it hands on. -/
theorem Field.Traits.exists_extracted {fresh : Nat} {f : Field} {fc : FieldConfig} {source : Resolve}
    (h : f.Traits config fresh fc source) {path : List String} (hpath : path ∈ source.partPaths f.name) :
    ∃ part ∈ f.extracted, part.name = extractedName f.name path := by
  rw [h.extracted_eq]
  exact ⟨_, List.mem_map_of_mem hpath, rfl⟩

/-- Where parts agree, all paths that a service call reads are handed on. -/
theorem SchemaConfig.PartsAgree.mem_partPaths (agree : config.PartsAgree) {fresh : Nat} {f : Field}
    {fc : FieldConfig} {source : Resolve} (traits : f.Traits config fresh fc source)
    (hs : source.isService = true) {path : List String} (h : path ∈ source.paths) :
    path ∈ source.partPaths f.name := by
  obtain ⟨part, hpart, hname⟩ : ∃ part ∈ source.partPaths f.name,
      extractedName f.name part = extractedName f.name path := by
    cases source with
    | service name method args => exact exists_part (.inr h)
    | _ => cases hs
  have same : part = path := agree _ _ _ _ _ _ traits.source? traits.source? hs hs part
    (Resolve.mem_paths hpart) path h hname
  exact same ▸ hpart

namespace Planner

/-! ## Children -/

/-- The parts of a field that are added to what is wanted. -/
theorem foldlM_extracted (want : Selected → Except PlanError (Option Wanted)) {f : Field}
    {fresh : Nat} {fc : FieldConfig} {source : Resolve} (traits : f.Traits config fresh fc source)
    (shaped : List Wanted) :
    ∃ new, (f.extracted.map (.extracted f.toFieldDef)).foldlM (addWanted want) shaped =
        .ok (shaped ++ new) ∧
      (∀ x ∈ new, ∃ path ∈ source.partPaths f.name, x = .leaf (.ofPart f.name path)) ∧
      ((shaped.map (·.name)).Nodup → ((shaped ++ new).map (·.name)).Nodup) ∧
      ∀ part ∈ f.extracted, ∃ x ∈ shaped ++ new, x.name = part.name := by
  rw [traits.extracted_eq]
  generalize source.partPaths f.name = paths
  induction paths generalizing shaped with
  | nil => exact ⟨[], by simp; rfl, nofun, by simp, nofun⟩
  | cons path paths ih =>
    simp only [List.map_cons, List.foldlM_cons, List.forall_mem_cons]
    by_cases hold : shaped.any (·.name == extractedName f.name path) = true
    · have step : addWanted want shaped (.extracted f.toFieldDef
          ⟨extractedName f.name path, memberChain (.param f.param) .json path⟩) = .ok shaped :=
        if_pos hold
      obtain ⟨new, hnew, parts, nodup, named⟩ := ih shaped
      rw [step]
      refine ⟨new, hnew, fun x hx => ?_, nodup, ?_, named⟩
      · obtain ⟨path, hpath, rfl⟩ := parts x hx
        exact ⟨path, List.mem_cons_of_mem _ hpath, rfl⟩
      · obtain ⟨x, hx, hname⟩ := List.any_eq_true.mp hold
        exact ⟨x, List.mem_append_left _ hx, by simpa using hname⟩
    · have step : addWanted want shaped (.extracted f.toFieldDef
          ⟨extractedName f.name path, memberChain (.param f.param) .json path⟩) =
            .ok (shaped ++ [.leaf (.ofPart f.name path)]) := by
        unfold addWanted
        dsimp only
        rw [if_neg hold, pathFrom_memberChain]
        rfl
      obtain ⟨new, hnew, parts, nodup, named⟩ := ih (shaped ++ [.leaf (.ofPart f.name path)])
      rw [step]
      refine ⟨.leaf (.ofPart f.name path) :: new, ?_, ?_, ?_, ?_, ?_⟩
      · exact hnew.trans (congrArg Except.ok (List.append_cons ..).symm)
      · refine List.forall_mem_cons.mpr ⟨⟨path, List.mem_cons_self, rfl⟩, fun x hx => ?_⟩
        obtain ⟨path, hpath, rfl⟩ := parts x hx
        exact ⟨path, List.mem_cons_of_mem _ hpath, rfl⟩
      · intro distinct
        rw [List.append_cons]
        refine nodup ?_
        rw [List.map_append, List.nodup_append]
        refine ⟨distinct, by simp, fun a ha b hb => ?_⟩
        cases List.mem_singleton.mp hb
        rintro rfl
        obtain ⟨x, hx, hname⟩ := List.mem_map.mp ha
        exact hold (List.any_eq_true.mpr ⟨x, hx, beq_iff_eq.mpr hname⟩)
      · exact ⟨_, List.mem_append_right _ List.mem_cons_self, rfl⟩
      · rw [List.append_cons]
        exact named

end Planner

/-- What is wanted of a selected field. -/
structure Selected.Stands (config : SchemaConfig) (fresh : Nat) (s : Selected) (w : Wanted) : Prop where
  name : w.name = s.node.name
  field : w.item.field = s.field.name
  traits : ∃ fc, s.field.Traits config fresh fc w.item.source

theorem Selected.Stands.isService_eq {fresh : Nat} {s : Selected} {w : Wanted}
    (h : s.Stands config fresh w) : w.item.source.isService = s.field.hasServices := by
  obtain ⟨fc, traits⟩ := h.traits
  exact traits.hasServices_eq.symm

/-- The output names of selections that are made in one place: fields that share one are the same, and
none is the name of a part. -/
structure Selected.Distinct (selected : List Selected) : Prop where
  same : ∀ a ∈ selected, ∀ b ∈ selected, a.node.name = b.node.name → a.field = b.field
  apart : ∀ a ∈ selected, ∀ b ∈ selected, ∀ part ∈ b.field.extracted, part.name ≠ a.node.name

/-- Whether the output names are all different, and none of them is the name of a part. -/
def Selected.apart (selected : List Selected) : Bool :=
  decide (selected.map (·.node.name)).Nodup &&
    selected.all fun b => b.field.extracted.all fun part => selected.all fun a => part.name != a.node.name

theorem Selected.distinct_of_apart {selected : List Selected} (h : apart selected = true) :
    Selected.Distinct selected := by
  obtain ⟨nodup, apart⟩ := Bool.and_eq_true_iff.mp h
  refine ⟨fun a ha b hb same => ?_, fun a ha b hb part hpart => ?_⟩
  · rw [List.inj_on_of_nodup_map (of_decide_eq_true nodup) ha hb same]
  · have names := List.all_eq_true.mp (List.all_eq_true.mp (List.all_eq_true.mp apart b hb) part hpart)
    simpa using names a ha

theorem Selected.Distinct.mono {selected selected' : List Selected} (h : Selected.Distinct selected')
    (hs : ∀ s ∈ selected, s ∈ selected') : Selected.Distinct selected where
  same a ha b hb := h.same a (hs a ha) b (hs b hb)
  apart a ha b hb := h.apart a (hs a ha) b (hs b hb)

/-- What the shape pass wants is the value of one of the selected fields that need no service or a part
of one of the others. -/
def Wanted.StemsFrom (config : SchemaConfig) (fresh : Nat) (x : Wanted) (selected : List Selected) :
    Prop :=
  (∃ s ∈ selected, s.field.hasServices = false ∧ x.name = s.node.name) ∨
    ∃ s ∈ selected, s.field.hasServices = true ∧ ∃ fc source, s.field.Traits config fresh fc source ∧
      ∃ path ∈ source.partPaths s.field.name, x = .leaf (.ofPart s.field.name path)

theorem Wanted.StemsFrom.mono {fresh : Nat} {x : Wanted} {selected selected' : List Selected}
    (h : x.StemsFrom config fresh selected) (hs : ∀ s ∈ selected, s ∈ selected') :
    x.StemsFrom config fresh selected' :=
  h.imp (fun ⟨s, hmem, rest⟩ => ⟨s, hs s hmem, rest⟩) fun ⟨s, hmem, rest⟩ => ⟨s, hs s hmem, rest⟩

/-- What both passes want of the selected fields that were taken up so far. -/
structure Shaping (config : SchemaConfig) (fresh : Nat) (done : List Selected)
    (ws shaped : List Wanted) : Prop where
  nodup : (shaped.map (·.name)).Nodup
  taken : ∀ s ∈ done, ∃ w ∈ ws, s.Stands config fresh w
  each : ∀ w ∈ ws, ∃ s ∈ done, s.Stands config fresh w ∧
    (s.field.hasServices = false → ∃ x ∈ shaped, w.Shaped x)
  named : ∀ s ∈ done, s.field.hasServices = true → ∀ part ∈ s.field.extracted,
    ∃ x ∈ shaped, x.name = part.name
  known : ∀ x ∈ shaped, x.StemsFrom config fresh done

namespace Shaping

variable {fresh : Nat} {done : List Selected} {ws shaped : List Wanted}

theorem start : Shaping config fresh [] [] [] :=
  ⟨List.nodup_nil, by simp, by simp, by simp, by simp⟩

/-- A value under the name of a part is the value of a part. -/
theorem part (h : Shaping config fresh done ws shaped) (distinct : Selected.Distinct done)
    (agree : config.PartsAgree) {s : Selected} (hs : s ∈ done) {fc : FieldConfig} {source : Resolve}
    (traits : s.field.Traits config fresh fc source) (service : source.isService = true)
    {path : List String} (hpath : path ∈ source.paths) :
    ∃ field, .leaf (.ofPart field path) ∈ shaped ∧
      extractedName field path = extractedName s.field.name path := by
  have served : s.field.hasServices = true := traits.hasServices_eq.trans service
  have hpart := agree.mem_partPaths traits service hpath
  obtain ⟨part, extracted, heq⟩ := traits.exists_extracted hpart
  obtain ⟨x, hx, hname⟩ := h.named s hs served part extracted
  rcases h.known x hx with ⟨a, ha, -, hxa⟩ | ⟨a, -, hserved, fc', source', traits', path', hpath', rfl⟩
  · exact absurd (hname.symm.trans hxa) (distinct.apart a ha s hs _ extracted)
  · have same : path' = path := agree _ _ _ _ _ _ traits'.source? traits.source?
      (traits'.hasServices_eq.symm.trans hserved) service path' (Resolve.mem_paths hpath') path hpath
      (hname.trans heq)
    subst same
    exact ⟨a.field.name, hx, hname.trans heq⟩

/-- Nothing is wanted in the shape pass under the name of a service-backed field. -/
theorem absent (h : Shaping config fresh done ws shaped) (distinct : Selected.Distinct done)
    {s : Selected} (hs : s ∈ done) (served : s.field.hasServices = true) :
    ∀ x ∈ shaped, x.name ≠ s.node.name := by
  intro x hx hname
  rcases h.known x hx with ⟨a, ha, unserved, hxa⟩ | ⟨a, ha, -, fc, source, traits, path, hpath, rfl⟩
  · have same := distinct.same a ha s hs (hxa.symm.trans hname)
    rw [same, served] at unserved
    cases unserved
  · obtain ⟨part, extracted, heq⟩ := traits.exists_extracted hpath
    exact distinct.apart s hs a ha part extracted (heq.trans hname)

/-- The shape pass wants what it should in the place of all that is wanted. -/
theorem shapedAll (h : Shaping config fresh done ws shaped) (distinct : Selected.Distinct done)
    (agree : config.PartsAgree) : Wanted.ShapedAll shaped ws ∧ Wanted.Accounts ws shaped := by
  refine ⟨Wanted.shapedAll_iff.mpr ⟨fun w hw service => ?_, fun w hw hs => ?_⟩, h.nodup, fun x hx => ?_⟩
  · obtain ⟨s, hs, stands, -⟩ := h.each w hw
    obtain ⟨fc, traits⟩ := stands.traits
    refine ⟨fun x hx => ?_, fun path hpath => ?_⟩
    · show x.name ≠ w.name
      rw [stands.name]
      exact h.absent distinct hs (stands.isService_eq ▸ service) x hx
    · rw [stands.field]
      exact h.part distinct agree hs traits service hpath
  · obtain ⟨s, -, stands, shape⟩ := h.each w hw
    exact shape (stands.isService_eq ▸ hs)
  · rcases h.known x hx with ⟨s, hs, unserved, hname⟩ | ⟨s, hs, served, fc, source, traits, path, hpath, rfl⟩
    · obtain ⟨w, hw, stands⟩ := h.taken s hs
      exact .inl ⟨w, hw, stands.isService_eq.trans unserved, stands.name.trans hname.symm⟩
    · obtain ⟨w, hw, stands⟩ := h.taken s hs
      obtain ⟨fc', traits'⟩ := stands.traits
      have same : source = w.item.source :=
        Option.some.inj (traits.source?.symm.trans traits'.source?)
      exact .inr ⟨w, hw, stands.isService_eq.trans served, path, same ▸ Resolve.mem_paths hpath,
        s.field.name, rfl⟩

/-- A field that is backed by a service. -/
theorem serve (want : Selected → Except PlanError (Option Wanted))
    (h : Shaping config fresh done ws shaped) {s : Selected} (served : s.field.hasServices = true)
    {ws' : List Wanted} (stands : ∃ w ∈ ws', s.Stands config fresh w) (grown : ∀ w ∈ ws, w ∈ ws')
    (added : ∀ w ∈ ws', w ∈ ws ∨ s.Stands config fresh w) :
    ∃ shaped', (s.contributions .shape).foldlM (Planner.addWanted want) shaped = .ok shaped' ∧
      Shaping config fresh (done ++ [s]) ws' shaped' := by
  obtain ⟨w, hw, stands⟩ := stands
  obtain ⟨fc, traits⟩ := stands.traits
  obtain ⟨new, hnew, parts, nodup, named⟩ := Planner.foldlM_extracted want traits shaped
  have here : s ∈ done ++ [s] := List.mem_append_right _ List.mem_cons_self
  refine ⟨shaped ++ new, ?_, nodup h.nodup, ?_, fun w hw => ?_, ?_, fun x hx => ?_⟩
  · rw [Selected.contributions, if_pos served]
    exact hnew
  · refine List.forall_mem_append.mpr ⟨fun a ha => ?_, List.forall_mem_singleton.mpr ⟨w, hw, stands⟩⟩
    exact (h.taken a ha).imp fun w stands => stands.imp_left (grown w)
  · rcases added w hw with hw | stands
    · obtain ⟨a, ha, stands, shape⟩ := h.each w hw
      refine ⟨a, List.mem_append_left _ ha, stands, fun unserved => ?_⟩
      exact (shape unserved).imp fun x shape => shape.imp_left (List.mem_append_left _)
    · exact ⟨s, here, stands, fun unserved => Bool.noConfusion (served.symm.trans unserved)⟩
  · refine List.forall_mem_append.mpr ⟨fun a ha served part hpart => ?_,
      List.forall_mem_singleton.mpr fun _ => named⟩
    exact (h.named a ha served part hpart).imp fun x named => named.imp_left (List.mem_append_left _)
  · rcases List.mem_append.mp hx with hx | hx
    · exact (h.known x hx).mono fun _ => List.mem_append_left _
    · obtain ⟨path, hpath, rfl⟩ := parts x hx
      exact .inr ⟨s, here, served, fc, _, traits, path, hpath, rfl⟩

/-- A field that needs no service and whose name is taken. -/
theorem again (h : Shaping config fresh done ws shaped) {s : Selected}
    (unserved : s.field.hasServices = false) {w : Wanted} (hw : w ∈ ws)
    (stands : s.Stands config fresh w) : Shaping config fresh (done ++ [s]) ws shaped where
  nodup := h.nodup
  taken := List.forall_mem_append.mpr ⟨h.taken, List.forall_mem_singleton.mpr ⟨w, hw, stands⟩⟩
  each := fun w hw => by
    obtain ⟨a, ha, rest⟩ := h.each w hw
    exact ⟨a, List.mem_append_left _ ha, rest⟩
  named := List.forall_mem_append.mpr ⟨h.named, List.forall_mem_singleton.mpr fun served =>
    Bool.noConfusion (unserved.symm.trans served)⟩
  known := fun x hx => (h.known x hx).mono fun _ => List.mem_append_left _

/-- A name that nothing is wanted under is not taken in the shape pass. -/
theorem untaken (h : Shaping config fresh done ws shaped) {s : Selected}
    (distinct : Selected.Distinct (done ++ [s])) (hnew : ∀ w ∈ ws, w.name ≠ s.node.name) :
    ∀ x ∈ shaped, x.name ≠ s.node.name := by
  intro x hx hname
  rcases h.known x hx with ⟨a, ha, -, hxa⟩ | ⟨a, ha, -, fc, source, traits, path, hpath, rfl⟩
  · obtain ⟨w, hw, stands⟩ := h.taken a ha
    exact hnew w hw (stands.name.trans (hxa.symm.trans hname))
  · obtain ⟨part, extracted, heq⟩ := traits.exists_extracted hpath
    exact distinct.apart s (List.mem_append_right _ List.mem_cons_self) a (List.mem_append_left _ ha)
      part extracted (heq.trans hname)

/-- A field that needs no service, under a new name. -/
theorem add (h : Shaping config fresh done ws shaped) {s : Selected}
    (unserved : s.field.hasServices = false) {w x : Wanted} (stands : s.Stands config fresh w)
    (hx : w.Shaped x) (untaken : ∀ y ∈ shaped, y.name ≠ s.node.name) :
    Shaping config fresh (done ++ [s]) (ws ++ [w]) (shaped ++ [x]) := by
  have here : s ∈ done ++ [s] := List.mem_append_right _ List.mem_cons_self
  have hname : x.name = s.node.name := hx.name_eq.trans stands.name
  refine ⟨?_, ?_, ?_, ?_, ?_⟩
  · rw [List.map_append, List.nodup_append]
    refine ⟨h.nodup, by simp, fun a ha b hb => ?_⟩
    cases List.mem_singleton.mp hb
    obtain ⟨y, hy, rfl⟩ := List.mem_map.mp ha
    exact fun same => untaken y hy (same.trans hname)
  · refine List.forall_mem_append.mpr ⟨fun a ha => ?_, List.forall_mem_singleton.mpr
      ⟨w, List.mem_append_right _ List.mem_cons_self, stands⟩⟩
    exact (h.taken a ha).imp fun u stands => stands.imp_left (List.mem_append_left _)
  · refine List.forall_mem_append.mpr ⟨fun u hu => ?_, List.forall_mem_singleton.mpr ?_⟩
    · obtain ⟨a, ha, stands, shape⟩ := h.each u hu
      refine ⟨a, List.mem_append_left _ ha, stands, fun unserved => ?_⟩
      exact (shape unserved).imp fun y shape => shape.imp_left (List.mem_append_left _)
    · exact ⟨s, here, stands, fun _ => ⟨x, List.mem_append_right _ List.mem_cons_self, hx⟩⟩
  · refine List.forall_mem_append.mpr ⟨fun a ha served part hpart => ?_,
      List.forall_mem_singleton.mpr fun served => Bool.noConfusion (unserved.symm.trans served)⟩
    exact (h.named a ha served part hpart).imp fun y named => named.imp_left (List.mem_append_left _)
  · refine List.forall_mem_append.mpr ⟨fun y hy => ?_, List.forall_mem_singleton.mpr ?_⟩
    · exact (h.known y hy).mono fun _ => List.mem_append_left _
    · exact .inl ⟨s, here, unserved, hname⟩

/-- One more field. -/
theorem step {wantService wantShape : Selected → Except PlanError (Option Wanted)}
    (h : Shaping config fresh done ws shaped) {s : Selected}
    (distinct : Selected.Distinct (done ++ [s]))
    (each : ∀ r, wantService s = .ok r → ∃ w, r = some w ∧ s.Stands config fresh w ∧
      (s.field.hasServices = false → ∃ x, w.Shaped x ∧ wantShape s = .ok (some x)))
    {ws' : List Wanted} (hadd : Planner.addWanted wantService ws (.node s) = .ok ws') :
    ∃ shaped', (s.contributions .shape).foldlM (Planner.addWanted wantShape) shaped = .ok shaped' ∧
      Shaping config fresh (done ++ [s]) ws' shaped' := by
  have own : s.field.hasServices = false →
      (s.contributions .shape).foldlM (Planner.addWanted wantShape) shaped =
        Planner.addWanted wantShape shaped (.node s) := fun unserved => by
    rw [Selected.contributions, if_neg (by simp [unserved]), List.foldlM_cons]
    exact bind_pure _
  unfold Planner.addWanted at hadd
  dsimp only at hadd
  split at hadd
  · rename_i hold
    cases hadd
    obtain ⟨w, hw, hname⟩ := List.any_eq_true.mp hold
    rw [beq_iff_eq] at hname
    obtain ⟨a, ha, stands, shape⟩ := h.each w hw
    have same : a.field = s.field := distinct.same a (List.mem_append_left _ ha) s
      (List.mem_append_right _ List.mem_cons_self) (stands.name.symm.trans hname)
    have standing : s.Stands config fresh w := ⟨hname, same ▸ stands.field, same ▸ stands.traits⟩
    cases hs : s.field.hasServices with
    | true => exact h.serve wantShape hs ⟨w, hw, standing⟩ (fun _ h => h) fun _ h => .inl h
    | false =>
      obtain ⟨x, hx, hshape⟩ := shape (same ▸ hs)
      have taken : shaped.any (·.name == s.node.name) = true :=
        List.any_eq_true.mpr ⟨x, hx, beq_iff_eq.mpr (hshape.name_eq.trans hname)⟩
      exact ⟨shaped, (own hs).trans (if_pos taken), h.again hs hw standing⟩
  · rename_i hnew
    obtain ⟨r, hr, hadd⟩ := bind_ok.mp hadd
    obtain ⟨w, rfl, standing, shape⟩ := each r hr
    cases hadd
    cases hs : s.field.hasServices with
    | true =>
      refine h.serve wantShape hs ⟨w, List.mem_append_right _ List.mem_cons_self, standing⟩
        (fun _ h => List.mem_append_left _ h) fun u hu => (List.mem_append.mp hu).imp_right fun hu => ?_
      exact List.mem_singleton.mp hu ▸ standing
    | false =>
      obtain ⟨x, hshape, hx⟩ := shape hs
      have untaken := h.untaken distinct (by simpa using hnew)
      have added : Planner.addWanted wantShape shaped (.node s) = .ok (shaped ++ [x]) := by
        unfold Planner.addWanted
        dsimp only
        rw [if_neg (by simpa using untaken), hx]
        rfl
      exact ⟨shaped ++ [x], (own hs).trans added, h.add hs standing hshape untaken⟩

/-- All fields that are selected in one place. -/
theorem of_foldlM {wantService wantShape : Selected → Except PlanError (Option Wanted)}
    {selected : List Selected} (distinct : Selected.Distinct selected)
    (each : ∀ s ∈ selected, ∀ r, wantService s = .ok r → ∃ w, r = some w ∧ s.Stands config fresh w ∧
      (s.field.hasServices = false → ∃ x, w.Shaped x ∧ wantShape s = .ok (some x)))
    (h : (selected.map .node).foldlM (Planner.addWanted wantService) [] = .ok ws) :
    ∃ shaped, (selected.flatMap (·.contributions .shape)).foldlM (Planner.addWanted wantShape) [] =
        .ok shaped ∧ Shaping config fresh selected ws shaped := by
  rw [List.foldlM_map] at h
  refine foldlM_ok (fun done ws => ∃ shaped, (done.flatMap (·.contributions .shape)).foldlM
    (Planner.addWanted wantShape) [] = .ok shaped ∧ Shaping config fresh done ws shaped) h
    ⟨[], rfl, .start⟩ ?_
  rintro done s rest ws ws' hsplit ⟨shaped, hshaped, shaping⟩ hadd
  obtain ⟨shaped', hadded, shaping⟩ := shaping.step (distinct.mono fun a ha => by
    rw [hsplit, List.append_cons]
    exact List.mem_append_left _ ha) (each s (by simp [hsplit])) hadd
  refine ⟨shaped', ?_, shaping⟩
  rw [List.flatMap_append, List.foldlM_append, hshaped, List.flatMap_singleton]
  exact hadded

end Shaping

end FieldPlan
