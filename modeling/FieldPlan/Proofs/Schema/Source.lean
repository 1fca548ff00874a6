import FieldPlan.Proofs.Schema.Described
import FieldPlan.Proofs.Ty

/-!
# Where the values of described fields come from

* `Resolve.Plain` : members, service calls and constants, with paths that are not empty;
* `Resolve.exprOver` : the expression of a source over the parameters of its owner and its arguments;
* `Described.traits` : what a field that was built from a description is made of.
-/

namespace FieldPlan

/-! ## Paths -/

theorem segments_ne_nil (text : String) : segments text ≠ [] := by
  unfold segments
  rw [Ne, List.map_eq_nil_iff]
  exact List.splitOn_ne_nil _ _

/-! ## Sources -/

/-- The path of an argument is not empty. -/
def ServiceArg.Plain : ServiceArg → Prop
  | .member path => path ≠ []
  | _ => True

/-- The sources that a description can give. -/
def Resolve.Plain : Resolve → Prop
  | .member path => path ≠ []
  | .service _ _ args => ∀ a ∈ args, a.Plain
  | .constant _ => True
  | .expr _ => False

/-- The expression of a source of a type over the parameters of the owner and of the arguments. -/
def Resolve.exprOver (r : Resolve) (t : Ty) (owner arguments : Param) : Expr :=
  match r with
  | .member path => memberChain (.param owner) t path
  | .service name method args =>
    .invoke (.service name) method (args.map (·.expr owner arguments)) t
  | .constant v => .constant v t
  | .expr e => e

def FieldConfig.source? (owner name : String) : FieldConfig → Option Resolve
  | .short _ => some (.member [name])
  | .full d => (d.resolve owner name).toOption

def FieldConfig.extensions : FieldConfig → List Extension
  | .short _ => []
  | .full d => d.extensions

theorem ServiceArg.plain_ofJson (v : Json) : (ServiceArg.ofJson v).Plain := by
  cases v with
  | str text =>
    unfold ServiceArg.ofJson
    dsimp only
    split
    · trivial
    · exact segments_ne_nil text
  | _ => trivial

theorem FieldDetail.plain_resolve {d : FieldDetail} {owner name : String} {r : Resolve}
    (h : d.resolve owner name = .ok r) : r.Plain := by
  unfold FieldDetail.resolve at h
  split at h
  · cases h
    exact List.cons_ne_nil _ _
  · split at h
    · cases h
    · cases h
      exact segments_ne_nil _
  · cases h
    intro a ha
    obtain ⟨v, -, rfl⟩ := List.mem_map.mp ha
    exact ServiceArg.plain_ofJson v
  · cases h
    trivial
  · cases h

theorem hasRecord_readTy {reference : String} {t : Ty} (h : readTy reference = .ok t) :
    t.hasRecord = false :=
  Ty.hasRecord_ofReference (mapError_ok.mp h)

/-- What a field that was built from a description is made of. -/
structure Field.Traits (config : SchemaConfig) (fresh : Nat) (f : Field) (fc : FieldConfig)
    (source : Resolve) : Prop where
  found : config.field? f.owner f.name = some fc
  source_eq : fc.source? f.owner f.name = some source
  plain : source.Plain
  bare : f.ty.hasRecord = false
  param_ty : f.param.ty = .entity f.owner false
  above : 1 < f.param.id
  below : f.param.id < fresh
  resolve : f.resolve = source.exprOver f.ty f.param .arguments
  services : f.services = f.resolve.services
  extracted : f.extracted =
    if f.resolve.services.isEmpty then [] else extractFields f.name f.resolve f.param
  argumentParam : f.argumentParam = if f.resolve.mentions .arguments then some .arguments else none
  extensions : f.extensions = fc.extensions

theorem Described.traits {config : SchemaConfig} {fresh : Nat} {f : Field}
    (h : Described config fresh f) : ∃ fc source, f.Traits config fresh fc source := by
  obtain ⟨id, link, found, specified, ty, above, below⟩ := h
  rename_i owner name fc spec p
  cases fc with
  | short reference =>
    obtain ⟨t, ht, h⟩ := bind_ok.mp specified
    cases h
    exact ⟨_, .member [name], found, rfl, List.cons_ne_nil _ _, hasRecord_readTy ht, ty, above, below,
      rfl, rfl, rfl, rfl, rfl⟩
  | full d =>
    obtain ⟨t, ht, h⟩ := bind_ok.mp specified
    obtain ⟨resolve, hr, h⟩ := bind_ok.mp h
    obtain ⟨arguments, -, h⟩ := bind_ok.mp h
    obtain ⟨link', -, h⟩ := bind_ok.mp h
    cases h
    refine ⟨_, resolve, found, ?_, FieldDetail.plain_resolve hr, hasRecord_readTy ht, ty, above, below,
      ?_, rfl, rfl, rfl, rfl⟩
    · show (d.resolve owner name).toOption = some resolve
      rw [hr]
      rfl
    · cases resolve <;> rfl

end FieldPlan
