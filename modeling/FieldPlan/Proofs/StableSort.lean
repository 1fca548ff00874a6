import Mathlib.Data.List.Basic

/-!
# Stable sorting

* `StablySorts` : a list in an order, with the items that are equal in the order as they were;
  `StablySorts.unique` : there is one such list;
* `stableSort`, `stableSort_spec` : merge sort gives it, for every total preorder;
* `StablySorts.after`, `stableSort_compareLex` : sorting by one order and then by another sorts by
  the second order first;
* `lexOrder`, `stableSort_lexOrder` : sorting by several orders sorts by each of them, the last one
  first.
-/

namespace FieldPlan

variable {α β : Type}

/-! ## What a stable sort is -/

/-- The items in an order, and the ones that are equal in the order as they were. -/
structure StablySorts (order : α → α → Ordering) (items sorted : List α) : Prop where
  perm : sorted.Perm items
  ordered : sorted.Pairwise fun a b => order a b ≠ .gt
  stable : ∀ a, sorted.filter (order a · == .eq) = items.filter (order a · == .eq)

namespace StablySorts

variable {order order' : α → α → Ordering} {items middle sorted sorted' : List α}

/-- Lists in an order that agree on every class of equal items are the same. -/
theorem eq_of_filter [Std.OrientedCmp order] (hp : sorted.Perm sorted')
    (ho : sorted.Pairwise fun a b => order a b ≠ .gt)
    (ho' : sorted'.Pairwise fun a b => order a b ≠ .gt)
    (hf : ∀ a, sorted.filter (order a · == .eq) = sorted'.filter (order a · == .eq)) :
    sorted = sorted' := by
  induction sorted generalizing sorted' with
  | nil => exact hp.nil_eq
  | cons a rest ih =>
    cases sorted' with
    | nil => exact absurd hp.symm.nil_eq (List.cons_ne_nil a rest).symm
    | cons b rest' =>
      obtain ⟨first, hrest⟩ := List.pairwise_cons.mp ho
      obtain ⟨first', hrest'⟩ := List.pairwise_cons.mp ho'
      -- Each head is in the other list, so neither comes after the other: they are in one class.
      have tie : order a b = .eq := by
        rcases List.mem_cons.mp (hp.mem_iff.mp List.mem_cons_self) with rfl | ha
        · exact Std.ReflCmp.compare_self
        rcases List.mem_cons.mp (hp.mem_iff.mpr List.mem_cons_self) with rfl | hb
        · exact Std.ReflCmp.compare_self
        exact Std.OrientedCmp.isLE_antisymm (Ordering.ne_gt_iff_isLE.mp (first b hb))
          (Ordering.ne_gt_iff_isLE.mp (first' a ha))
      have heads := hf a
      rw [List.filter_cons_of_pos (by simp [Std.ReflCmp.compare_self]),
        List.filter_cons_of_pos (by simp [tie])] at heads
      obtain rfl := (List.cons.inj heads).1
      refine congrArg _ (ih hp.cons_inv hrest hrest' fun c => ?_)
      have := hf c
      rw [List.filter_cons, List.filter_cons] at this
      split at this
      · exact (List.cons.inj this).2
      · exact this

/-- An order and the list determine the sorted list. -/
theorem unique [Std.OrientedCmp order] (h : StablySorts order items sorted)
    (h' : StablySorts order items sorted') : sorted = sorted' :=
  eq_of_filter (h.perm.trans h'.perm.symm) h.ordered h'.ordered
    fun a => (h.stable a).trans (h'.stable a).symm

/-- Sorting by one order after another sorts by the later one first. -/
theorem after [Std.ReflCmp order] (h : StablySorts order middle sorted)
    (h' : StablySorts order' items middle) : StablySorts (compareLex order order') items sorted where
  perm := h.perm.trans h'.perm
  ordered := by
    rw [List.pairwise_iff_forall_sublist]
    intro a b hab lex
    rcases Ordering.then_eq_gt.mp lex with gt | ⟨tie, gt⟩
    · exact List.pairwise_iff_forall_sublist.mp h.ordered hab gt
    · -- Equal items of the sorted list come in the order in which they came before.
      have tied : [a, b].filter (order a · == .eq) = [a, b] := by
        simp [Std.ReflCmp.compare_self, tie]
      have hmiddle : [a, b].Sublist middle := by
        rw [← tied]
        refine (hab.filter _).trans ?_
        rw [h.stable a]
        exact List.filter_sublist
      exact List.pairwise_iff_forall_sublist.mp h'.ordered hmiddle gt
  stable a := by
    have both : ∀ l : List α, l.filter (compareLex order order' a · == .eq) =
        (l.filter (order a · == .eq)).filter (order' a · == .eq) := by
      intro l
      rw [List.filter_filter]
      refine List.filter_congr fun b _ => ?_
      rw [Bool.eq_iff_iff, Bool.and_eq_true, beq_iff_eq, beq_iff_eq, beq_iff_eq, compareLex_eq_eq,
        and_comm]
    rw [both, both, h.stable a, List.filter_comm, h'.stable a, List.filter_comm]

end StablySorts

/-! ## Merge sort -/

/-- Sorts a list stably in an order. -/
def stableSort (order : α → α → Ordering) (items : List α) : List α :=
  items.mergeSort fun a b => order a b != .gt

theorem stableSort_congr {order order' : α → α → Ordering} {items : List α}
    (h : ∀ a ∈ items, ∀ b ∈ items, order a b = order' a b) :
    stableSort order items = stableSort order' items := by
  have := List.map_mergeSort (f := id) (l := items) (r := fun a b => order a b != .gt)
    (s := fun a b => order' a b != .gt) fun a ha b hb => by rw [h a ha b hb, id, id]
  simpa [stableSort] using this

theorem map_stableSort (order : β → β → Ordering) (f : α → β) (items : List α) :
    (stableSort (fun a b => order (f a) (f b)) items).map f = stableSort order (items.map f) :=
  List.map_mergeSort fun _ _ _ _ => rfl

theorem stableSort_spec (order : α → α → Ordering) [Std.TransCmp order] (items : List α) :
    StablySorts order items (stableSort order items) := by
  have le_iff : ∀ a b, (order a b != .gt) = true ↔ (order a b).isLE = true := by
    intro a b
    rw [bne_iff_ne, Ordering.isLE_iff_ne_gt]
  have trans : ∀ a b c, (order a b != .gt) = true → (order b c != .gt) = true →
      (order a c != .gt) = true := by
    intro a b c
    rw [le_iff, le_iff, le_iff]
    exact Std.TransCmp.isLE_trans
  have total : ∀ a b, ((order a b != .gt) || (order b a != .gt)) = true := by
    intro a b
    have swap : order b a = (order a b).swap := Std.OrientedCmp.eq_swap
    rw [swap]
    cases order a b <;> rfl
  have perm : (stableSort order items).Perm items := List.mergeSort_perm items _
  refine ⟨perm, ?_, fun a => ?_⟩
  · exact (List.pairwise_mergeSort trans total items).imp fun h => bne_iff_ne.mp h
  · -- A class is a sublist in which nothing comes after anything, so sorting keeps it as it is.
    have kept : (items.filter (order a · == .eq)).Sublist (stableSort order items) := by
      refine List.sublist_mergeSort trans total ?_ List.filter_sublist
      refine List.pairwise_of_forall_mem_list fun b hb c hc => ?_
      have hb := beq_iff_eq.mp (List.mem_filter.mp hb).2
      have hc := beq_iff_eq.mp (List.mem_filter.mp hc).2
      simp [Std.TransCmp.eq_trans (Std.OrientedCmp.eq_symm hb) hc]
    have := kept.filter (order a · == .eq)
    rw [List.filter_filter] at this
    simp only [Bool.and_self] at this
    exact (this.eq_of_length (perm.filter _).length_eq.symm).symm

/-- Sorting by one order after another is sorting by the later one first. -/
theorem stableSort_compareLex (order order' : α → α → Ordering) [Std.TransCmp order]
    [Std.TransCmp order'] (items : List α) :
    stableSort (compareLex order order') items = stableSort order (stableSort order' items) :=
  (stableSort_spec _ items).unique ((stableSort_spec order _).after (stableSort_spec order' items))

/-! ## Several orders -/

theorem transCmp_comap (order : β → β → Ordering) [h : Std.TransCmp order] (f : α → β) :
    Std.TransCmp fun a b => order (f a) (f b) where
  eq_swap := h.eq_swap
  isLE_trans := h.isLE_trans

/-- The order by the first of the orders, then by the second, and so on. -/
def lexOrder (orders : List (α → α → Ordering)) : α → α → Ordering :=
  orders.foldr compareLex fun _ _ => .eq

theorem transCmp_lexOrder {orders : List (α → α → Ordering)}
    (h : ∀ order ∈ orders, Std.TransCmp order) : Std.TransCmp (lexOrder orders) := by
  induction orders with
  | nil => exact { eq_swap := rfl, isLE_trans := fun _ _ => rfl }
  | cons order orders ih =>
    obtain ⟨_, hrest⟩ := List.forall_mem_cons.mp h
    have := ih hrest
    exact inferInstanceAs (Std.TransCmp (compareLex order (lexOrder orders)))

/-- Sorting by several orders is sorting by each of them, the last one first. -/
theorem stableSort_lexOrder {orders : List (α → α → Ordering)}
    (h : ∀ order ∈ orders, Std.TransCmp order) (items : List α) :
    stableSort (lexOrder orders) items = orders.foldr stableSort items := by
  induction orders with
  | nil => exact List.mergeSort_of_pairwise (List.pairwise_of_forall fun _ _ => rfl)
  | cons order orders ih =>
    obtain ⟨_, hrest⟩ := List.forall_mem_cons.mp h
    have := transCmp_lexOrder hrest
    show stableSort (compareLex order (lexOrder orders)) items = _
    rw [stableSort_compareLex, ih hrest, List.foldr_cons]

theorem perm_foldr_stableSort (orders : List (α → α → Ordering)) (items : List α) :
    (orders.foldr stableSort items).Perm items := by
  induction orders with
  | nil => exact .refl items
  | cons order orders ih => exact (List.mergeSort_perm _ _).trans ih

end FieldPlan
