import FieldPlan.Selection.Inheritance

/-!
# Arguments along a chain of inheritance

* `Dict.find?_union`, `Dict.keys_union`, `Dict.union_union` : the entries of a union, their order, and
  unions of unions;
* `SelectionTree.Nearest` : the nearest node of a lineage that selects a field;
* `SelectionTree.Donors` : the nodes whose arguments a node takes over, one after the other;
* `SelectionTree.Donors.merged_eq` : the arguments of a node with the inherited ones are its own and
  the new ones of its donors;
* `SelectionTree.arguments_leftBiased` : every node has exactly one list of donors, which ends also
  where fields inherit from each other, and of each argument the first value counts.
-/

namespace FieldPlan

/-! ## Unions of tables -/

namespace Dict

variable {α : Type}

theorem union_cons (d e : Dict α) (name : String) (v : α) :
    union d ((name, v) :: e) = union (d.insertNew name v) e := rfl

theorem find?_union (d e : Dict α) (name : String) :
    (union d e).find? name = (d.find? name).or (e.find? name) := by
  induction e generalizing d with
  | nil => cases h : d.find? name <;> simp [union, h]
  | cons x e ih =>
    obtain ⟨k, v⟩ := x
    rw [union_cons, ih]
    by_cases hk : k ∈ d.keys
    · rw [insertNew_of_mem hk, find?_cons]
      split
      · rename_i he
        subst he
        cases h : d.find? k with
        | some w => rfl
        | none => exact absurd hk ((find?_eq_none d k).mp h)
      · rfl
    · rw [insertNew_of_not_mem hk, find?_append, find?_cons, find?_cons, find?_nil]
      cases d.find? name <;> split <;> rfl

/-- The names of the first table are followed by the new ones of the second. -/
theorem keys_union (d e : Dict α) :
    (union d e).keys = d.keys ++ (e.keys.filter (· ∉ d.keys)).eraseDups := by
  induction e generalizing d with
  | nil => simp [union, keys]
  | cons x e ih =>
    obtain ⟨k, v⟩ := x
    rw [union_cons, ih, show keys ((k, v) :: e) = k :: keys e from rfl, List.filter_cons]
    by_cases hk : k ∈ d.keys
    · rw [insertNew_of_mem hk, if_neg (by simpa using hk)]
    · have known : (d.insertNew k v).keys = d.keys ++ [k] := by
        rw [insertNew_of_not_mem hk]
        simp [keys]
      rw [if_pos (by simpa using hk), List.eraseDups_cons, List.filter_filter, known,
        List.append_assoc, List.singleton_append]
      congr 3
      refine List.filter_congr fun name _ => ?_
      by_cases h : name = k <;> simp [h]

theorem mem_keys_union (d e : Dict α) (name : String) :
    name ∈ (union d e).keys ↔ name ∈ d.keys ∨ name ∈ e.keys := by
  rw [keys_union, List.mem_append, List.mem_eraseDups, List.mem_filter]
  by_cases h : name ∈ d.keys <;> simp [h]

/-- Only the new entries of a union enter another one. -/
theorem union_union (d e f : Dict α) : union d (union e f) = union d (e ++ f) := by
  induction f generalizing e with
  | nil => simp [union]
  | cons x f ih =>
    obtain ⟨k, v⟩ := x
    rw [union_cons, ih]
    by_cases hk : k ∈ e.keys
    · have split_off : ∀ g, union d (e ++ g) = union (union d e) g := by simp [union]
      have known : k ∈ (union d e).keys := (mem_keys_union d e k).mpr (.inr hk)
      rw [insertNew_of_mem hk, split_off, split_off, union_cons, insertNew_of_mem known]
    · rw [insertNew_of_not_mem hk, List.append_assoc, List.singleton_append]

end Dict

/-! ## Donors -/

namespace SelectionTree

variable {t : SelectionTree} {source : FieldId} {n a : Node} {lineage above : List NodeId}
  {donors : List Node}

/-- The nearest node of a lineage that selects the field `source`, and the lineage above it. -/
def Nearest (t : SelectionTree) (source : FieldId) (lineage : List NodeId) (a : Node)
    (above : List NodeId) : Prop :=
  ∃ passed id, lineage = passed ++ id :: above ∧ t.node? id = some a ∧
    a.selectsField source = true ∧
    ∀ i ∈ passed, ∀ m, t.node? i = some m → m.selectsField source = false

/-- The nodes whose arguments a node takes over: the nearest one that selects the field it inherits
from, followed by the donors of that node. -/
inductive Donors (t : SelectionTree) : Node → List NodeId → List Node → Prop
  | none {n : Node} {lineage : List NodeId}
      (h : ∀ source, n.argumentSource? = some source → ∀ a above, ¬t.Nearest source lineage a above) :
      Donors t n lineage []
  | some {n a : Node} {lineage above : List NodeId} {source : FieldId} {rest : List Node}
      (hs : n.argumentSource? = some source) (ha : t.Nearest source lineage a above)
      (hr : Donors t a above rest) : Donors t n lineage (a :: rest)

theorem nearest_here {id : NodeId} (ha : t.node? id = some a) (hs : a.selectsField source = true) :
    t.Nearest source (id :: above) a above :=
  ⟨[], id, rfl, ha, hs, by simp⟩

theorem Nearest.further {id : NodeId} (h : t.Nearest source lineage a above)
    (hid : ∀ m, t.node? id = some m → m.selectsField source = false) :
    t.Nearest source (id :: lineage) a above := by
  obtain ⟨passed, i, rfl, ha, hs, hp⟩ := h
  exact ⟨id :: passed, i, rfl, ha, hs, List.forall_mem_cons.mpr ⟨hid, hp⟩⟩

/-- Where the nearest node of a lineage stands: at its head, or behind a head that does not select
the field. -/
theorem nearest_cons {id : NodeId} : t.Nearest source (id :: lineage) a above ↔
    (t.node? id = some a ∧ a.selectsField source = true ∧ lineage = above) ∨
      ((∀ m, t.node? id = some m → m.selectsField source = false) ∧
        t.Nearest source lineage a above) := by
  constructor
  · rintro ⟨passed, i, hl, ha, hs, hp⟩
    cases passed with
    | nil =>
      cases hl
      exact .inl ⟨ha, hs, rfl⟩
    | cons j passed =>
      cases hl
      obtain ⟨hid, hp⟩ := List.forall_mem_cons.mp hp
      exact .inr ⟨hid, passed, i, rfl, ha, hs, hp⟩
  · rintro (⟨ha, hs, rfl⟩ | ⟨hid, h⟩)
    · exact nearest_here ha hs
    · exact h.further hid

theorem Nearest.unique {a' : Node} {above' : List NodeId} (h : t.Nearest source lineage a above)
    (h' : t.Nearest source lineage a' above') : a = a' ∧ above = above' := by
  induction lineage with
  | nil =>
    obtain ⟨passed, i, hl, -⟩ := h
    simp at hl
  | cons id lineage ih =>
    rcases nearest_cons.mp h with ⟨ha, hs, rfl⟩ | ⟨hid, h⟩ <;>
      rcases nearest_cons.mp h' with ⟨ha', hs', rfl⟩ | ⟨hid', h'⟩
    · exact ⟨Option.some.inj (ha.symm.trans ha'), rfl⟩
    · rw [hid' a ha] at hs
      cases hs
    · rw [hid a' ha'] at hs'
      cases hs'
    · exact ih h h'

theorem Nearest.length_lt (h : t.Nearest source lineage a above) : above.length < lineage.length := by
  obtain ⟨passed, i, rfl, -⟩ := h
  rw [List.length_append, List.length_cons]
  omega

theorem nearest_or_not (t : SelectionTree) (source : FieldId) (lineage : List NodeId) :
    (∃ a above, t.Nearest source lineage a above) ∨
      ∀ a above, ¬t.Nearest source lineage a above := by
  by_cases h : ∃ a above, t.Nearest source lineage a above
  · exact .inl h
  · exact .inr fun a above ha => h ⟨a, above, ha⟩

/-- Each list of donors is shorter than the lineage was, so that following the fields that fields
inherit from ends. -/
theorem exists_donors (t : SelectionTree) (n : Node) (lineage : List NodeId) :
    ∃ donors, t.Donors n lineage donors ∧ donors.length ≤ lineage.length := by
  induction hk : lineage.length using Nat.strongRecOn generalizing n lineage with
  | ind k ih =>
    cases hs : n.argumentSource? with
    | none => exact ⟨[], .none (by simp [hs]), Nat.zero_le _⟩
    | some source =>
      rcases nearest_or_not t source lineage with ⟨a, above, ha⟩ | hn
      · have hlt := ha.length_lt
        obtain ⟨rest, hr, hle⟩ := ih above.length (hk ▸ hlt) a above rfl
        exact ⟨a :: rest, .some hs ha hr, by rw [List.length_cons]; omega⟩
      · refine ⟨[], .none fun source' hs' => ?_, Nat.zero_le _⟩
        rw [hs] at hs'
        cases hs'
        exact hn

theorem Donors.unique {others : List Node} (h : t.Donors n lineage donors)
    (h' : t.Donors n lineage others) : others = donors := by
  induction h generalizing others with
  | none hn =>
    cases h' with
    | none => rfl
    | some hs ha => exact absurd ha (hn _ hs _ _)
  | some hs ha _ ih =>
    cases h' with
    | none hn => exact absurd ha (hn _ hs _ _)
    | some hs' ha' hr' =>
      rw [hs] at hs'
      cases hs'
      obtain ⟨rfl, rfl⟩ := ha.unique ha'
      rw [ih hr']

/-! ## Inherited arguments -/

theorem inherited_of_nearest (h : t.Nearest source lineage a above) :
    t.inherited source lineage = t.mergedArguments a above := by
  induction lineage with
  | nil =>
    obtain ⟨passed, i, hl, -⟩ := h
    simp at hl
  | cons id lineage ih =>
    rcases nearest_cons.mp h with ⟨ha, hs, rfl⟩ | ⟨hid, h⟩
    · simp only [inherited, ha, hs, if_true, mergedArguments]
    · rw [inherited]
      split
      · exact ih h
      · rename_i m hm
        rw [if_neg (by simp [hid m hm]), ih h]

theorem inherited_of_not_nearest (h : ∀ a above, ¬t.Nearest source lineage a above) :
    t.inherited source lineage = [] := by
  induction lineage with
  | nil => rfl
  | cons id lineage ih =>
    have hid : ∀ m, t.node? id = some m → m.selectsField source = false := by
      intro m hm
      cases hs : m.selectsField source with
      | false => rfl
      | true => exact absurd (nearest_here hm hs) (h m lineage)
    have hrest := ih fun a above ha => h a above (ha.further hid)
    rw [inherited]
    split
    · exact hrest
    · rename_i m hm
      rw [if_neg (by simp [hid m hm]), hrest]

theorem Donors.merged_eq (h : t.Donors n lineage donors) :
    t.mergedArguments n lineage = Dict.union n.arguments (donors.flatMap (·.arguments)) := by
  induction h with
  | @none n lineage hn =>
    rw [mergedArguments]
    split
    · rename_i source hs
      rw [inherited_of_not_nearest (hn source hs)]
      rfl
    · rfl
  | some hs ha _ ih =>
    rw [mergedArguments, hs]
    dsimp only
    rw [inherited_of_nearest ha, ih, Dict.union_union]
    rfl

theorem find?_flatMap_arguments (ms : List Node) (name : String) :
    Dict.find? (ms.flatMap (·.arguments)) name = ms.findSome? (·.arguments.find? name) := by
  induction ms with
  | nil => rfl
  | cons m ms ih =>
    rw [List.flatMap_cons, Dict.find?_append, ih, List.findSome?_cons]
    cases m.arguments.find? name <;> rfl

/-- The arguments of a node with the inherited ones: each name has the value that the first of the node
and its donors gives to it, and the names of the node are followed by the new ones of each donor. -/
theorem arguments_leftBiased (t : SelectionTree) (n : Node) (lineage : List NodeId) :
    ∃ donors, t.Donors n lineage donors ∧ (∀ others, t.Donors n lineage others → others = donors) ∧
      donors.length ≤ lineage.length ∧
      (∀ name, (t.mergedArguments n lineage).find? name =
        (n :: donors).findSome? (·.arguments.find? name)) ∧
      (t.mergedArguments n lineage).keys = n.arguments.keys ++
        ((donors.flatMap (·.arguments.keys)).filter (· ∉ n.arguments.keys)).eraseDups := by
  obtain ⟨donors, h, hle⟩ := exists_donors t n lineage
  refine ⟨donors, h, fun others => h.unique, hle, fun name => ?_, ?_⟩
  · rw [h.merged_eq, Dict.find?_union, find?_flatMap_arguments, List.findSome?_cons]
    cases n.arguments.find? name <;> rfl
  · have names : Dict.keys (donors.flatMap (·.arguments)) = donors.flatMap (·.arguments.keys) :=
      List.map_flatMap
    rw [h.merged_eq, Dict.keys_union, names]

end SelectionTree

end FieldPlan
