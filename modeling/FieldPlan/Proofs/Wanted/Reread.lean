import FieldPlan.Proofs.Schema.Parts
import FieldPlan.Proofs.Wanted.Tree

/-!
# What is wanted of a materialized value

In the service pass after a shape pass an owner's value may be a record that the shape pass built.
What the record holds is taken from it; of a service call, the parts that it holds.

* `Ty.along`, `Ty.Flat` : the type of a chain of members over a type, and types without members;
* `rereadPath`, `Resolve.reread` : paths and sources, with the parts that a type holds read from it;
* `Item.view`, `Wanted.view` : what a pass that is planned in a frame reads of what is wanted.
-/

namespace FieldPlan

/-! ## Types of chains -/

namespace Ty

/-- The type has no members of its own. -/
def Flat (t : Ty) : Prop := ∀ name, t.member? name = none

/-- The type of the chain of members along a path over a type; members that are not known have the
type `t` at the end of the path and any type before it. -/
def along (τ t : Ty) : List String → Ty
  | [] => τ
  | [name] => (τ.member? name).getD t
  | name :: rest => along ((τ.member? name).getD .json) t rest

theorem flat_json : Ty.json.Flat := fun _ => rfl

theorem flat_entity (name : String) (n : Bool) : (Ty.entity name n).Flat := fun _ => rfl

theorem Flat.along {τ : Ty} (h : τ.Flat) (t : Ty) {path : List String} (hp : path ≠ []) :
    τ.along t path = t := by
  induction path generalizing τ with
  | nil => exact absurd rfl hp
  | cons name rest ih =>
    cases rest with
    | nil => simp [Ty.along, h name]
    | cons next rest =>
      rw [Ty.along, h name]
      · exact ih flat_json (List.cons_ne_nil _ _)
      · simp

end Ty

/-! ## Rereading -/

/-- The member of a type under which a part of a field was materialized. -/
def knownPart (field : String) (parts : List (List String)) (τ : Ty) (path : List String) :
    Option String :=
  if path ∈ parts ∧ (τ.member? (extractedName field path)).isSome then
    some (extractedName field path)
  else none

/-- A path in reverse, read from its longest part that is known. -/
def rereadReversed (known : List String → Option String) : List String → List String
  | [] => []
  | name :: before =>
    match known (before.reverse ++ [name]) with
    | some part => [part]
    | none => rereadReversed known before ++ [name]

/-- A path read from its longest part that is known. -/
def rereadPath (known : List String → Option String) (path : List String) : List String :=
  rereadReversed known path.reverse

/-- An argument with its part read from what was materialized. -/
def ServiceArg.reread (known : List String → Option String) : ServiceArg → ServiceArg
  | .member path => .member (rereadPath known path)
  | a => a

namespace Resolve

/-- A source with its parts read from a value of type `τ` that was materialized. -/
def reread (field : String) (τ : Ty) (r : Resolve) : Resolve :=
  match r with
  | .service name method args =>
    .service name method (args.map (·.reread (knownPart field (r.partPaths field) τ)))
  | r => r

/-- The type of a source of type `t` over a value of type `τ`. -/
def tyOver (τ t : Ty) : Resolve → Ty
  | .member path => τ.along t path
  | _ => t

end Resolve

theorem rereadReversed_none {known : List String → Option String} (h : ∀ path, known path = none)
    (path : List String) : rereadReversed known path = path.reverse := by
  induction path with
  | nil => rfl
  | cons name before ih => rw [rereadReversed, h, ih, List.reverse_cons]

/-- Nothing is known of a value whose type has no members. -/
theorem Resolve.reread_flat {τ : Ty} (h : τ.Flat) (field : String) (r : Resolve) :
    r.reread field τ = r := by
  cases r with
  | service name method args =>
    have known : ∀ path, knownPart field ((Resolve.service name method args).partPaths field) τ path =
        none := fun path => by simp [knownPart, h (extractedName field path)]
    refine congrArg (Resolve.service name method) ((List.map_congr_left fun a _ => ?_).trans
      (List.map_id args))
    cases a with
    | member path =>
      simp only [ServiceArg.reread, rereadPath, rereadReversed_none known, List.reverse_reverse, id]
    | _ => rfl
  | _ => rfl

/-! ## Views -/

def Frame.below (frame : Frame) : Frame := { frame with isRoot := false }

namespace Item

/-- The value itself, over an owner's value of type `τ` that was materialized. -/
def reread (τ : Ty) (item : Item) : Item :=
  { item with source := item.source.reread item.field τ, ty := item.source.tyOver τ item.ty }

def taken (u : Ty) (item : Item) : Item :=
  { item with source := .member [item.name], ty := u, arrangement := some {} }

def whole (τ : Ty) (item : Item) : Item :=
  { item with source := .member [], ty := τ, arrangement := some {} }

/-- The value as a frame reads it from an owner's value of type `τ`. -/
def view (frame : Frame) (τ : Ty) (item : Item) : Item :=
  if frame.contextChanged then
    if frame.isRoot then item.whole τ
    else
      match τ.member? item.name with
      | some u => item.taken u
      | none => item.reread τ
  else item

@[simp] theorem name_view (frame : Frame) (τ : Ty) (item : Item) :
    (item.view frame τ).name = item.name := by
  unfold view
  split
  · split
    · rfl
    · split <;> rfl
  · rfl

@[simp] theorem arguments_view (frame : Frame) (τ : Ty) (item : Item) :
    (item.view frame τ).arguments = item.arguments := by
  unfold view
  split
  · split
    · rfl
    · split <;> rfl
  · rfl

end Item

mutual

/-- What is wanted as a frame reads it from an owner's value of type `τ`. -/
def Wanted.view (frame : Frame) (τ : Ty) : Wanted → Wanted
  | .leaf item => .leaf (item.view frame τ)
  | .object item children =>
    .object (item.view frame τ) (Wanted.viewAll frame.below (item.view frame τ).ty children)
  | .list item children =>
    .list (item.view frame τ)
      (Wanted.viewAll frame.below ((item.view frame τ).ty.element?.getD .json) children)

/-- All that is wanted as a frame reads it from an owner's value of type `τ`. -/
def Wanted.viewAll (frame : Frame) (τ : Ty) : List Wanted → List Wanted
  | [] => []
  | w :: ws => Wanted.view frame τ w :: Wanted.viewAll frame τ ws

end

@[simp] theorem Wanted.name_view (frame : Frame) (τ : Ty) (w : Wanted) :
    (w.view frame τ).name = w.name := by
  cases w <;> exact Item.name_view frame τ _

/-! ## Contexts that nothing was materialized in -/

theorem Item.view_unchanged {frame : Frame} (h : frame.contextChanged = false) (τ : Ty)
    (item : Item) : item.view frame τ = item := by
  unfold view
  rw [if_neg (by simp [h])]

mutual

theorem Wanted.view_unchanged {frame : Frame} (h : frame.contextChanged = false) (τ : Ty)
    (w : Wanted) : w.view frame τ = w := by
  have below : frame.below.contextChanged = false := h
  match w with
  | .leaf item => rw [Wanted.view, Item.view_unchanged h]
  | .object item ws =>
    rw [Wanted.view, Item.view_unchanged h, Wanted.viewAll_unchanged below]
  | .list item ws =>
    rw [Wanted.view, Item.view_unchanged h, Wanted.viewAll_unchanged below]

theorem Wanted.viewAll_unchanged {frame : Frame} (h : frame.contextChanged = false) (τ : Ty)
    (ws : List Wanted) : Wanted.viewAll frame τ ws = ws := by
  match ws with
  | [] => rfl
  | w :: ws => rw [Wanted.viewAll, Wanted.view_unchanged h, Wanted.viewAll_unchanged h]

end

end FieldPlan
