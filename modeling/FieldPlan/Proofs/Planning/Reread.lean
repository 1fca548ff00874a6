import FieldPlan.Proofs.Planning.Own

/-!
# Sources over a materialized context

* `Expr.eqv_memberChain` : what is structurally equal to a chain over a parameter;
* `partPairs` : the chains along the parts of a field and the members of a context that hold them;
* `Resolve.own_reread` : a source over a context that holds parts of it.
-/

namespace FieldPlan

theorem Field.Traits.flat {config : SchemaConfig} {fresh : Nat} {f : Field} {fc : FieldConfig}
    {source : Resolve} (h : f.Traits config fresh fc source) : f.param.ty.Flat :=
  h.param_ty ▸ Ty.flat_entity f.owner false

theorem Param.flat_arguments : Param.arguments.ty.Flat := fun _ => rfl

namespace Expr

theorem pathFrom_of_id {p q : Param} (h : q.id = p.id) (path : List String) :
    (memberChain (.param q) .json path).pathFrom? p = some path := by
  induction path using List.reverseRec with
  | nil => simp [memberChain, pathFrom?, h]
  | append_singleton path name ih => rw [memberChain_concat, pathFrom?, ih, Option.map_some]

/-- What is structurally equal to a chain is a chain along the same path. -/
theorem eqv_memberChain {owner : Param} {path : List String} {x : Expr} :
    eqv (memberChain (.param owner) .json path) x = true ↔
      ∃ q : Param, q.id = owner.id ∧ x = memberChain (.param q) .json path := by
  induction path using List.reverseRec generalizing x with
  | nil =>
    cases x with
    | param q =>
      rw [memberChain, eqv, beq_iff_eq]
      refine ⟨fun h => ⟨q, h.symm, rfl⟩, fun h => ?_⟩
      obtain ⟨r, hr, h⟩ := h
      cases h
      exact hr.symm
    | _ => simp [memberChain, eqv]
  | append_singleton path name ih =>
    rw [memberChain_concat]
    constructor
    · intro h
      cases x <;> simp [eqv] at h
      obtain ⟨⟨h, rfl⟩, rfl⟩ := h
      obtain ⟨q, hq, rfl⟩ := ih.mp h
      exact ⟨q, hq, (memberChain_concat _ _ _).symm⟩
    · rintro ⟨q, hq, rfl⟩
      rw [memberChain_concat]
      simp [eqv, ih.mpr ⟨q, hq, rfl⟩]

theorem eqv_memberChains {owner : Param} {path path' : List String} :
    eqv (memberChain (.param owner) .json path) (memberChain (.param owner) .json path') = true ↔
      path = path' := by
  rw [eqv_memberChain]
  constructor
  · rintro ⟨q, hq, h⟩
    have h := congrArg (pathFrom? owner) h
    rw [pathFrom_of_id hq, pathFrom_of_id rfl] at h
    exact (Option.some.inj h).symm
  · rintro rfl
    exact ⟨owner, rfl, rfl⟩

theorem mem_of_pick {pairs : List (Expr × Expr)} {x r : Expr} (h : Rule.pick pairs x = some r) :
    ∃ a, (a, r) ∈ pairs ∧ eqv a x = true := by
  unfold Rule.pick at h
  obtain ⟨pair, hp, rfl⟩ := Option.map_eq_some_iff.mp h
  have same : (pair.1 == x) = true := by simpa using List.find?_some hp
  exact ⟨pair.1, List.mem_of_find?_eq_some hp, same⟩

end Expr

/-! ## Parts held by a context -/

section PartPairs

open Expr

variable {C : Expr} {owner : Param} {field : String} {parts : List (List String)}

/-- The chains along paths and the members of a context that hold their values. -/
def partPairs (C : Expr) (owner : Param) (field : String) (parts : List (List String)) :
    List (Expr × Expr) :=
  parts.filterMap fun path => (C.recordMember? (extractedName field path)).map fun m =>
    (memberChain (.param owner) .json path, m)

theorem pick_partPairs (path : List String) :
    Rule.pick (partPairs C owner field parts) (memberChain (.param owner) .json path) =
      if path ∈ parts then C.recordMember? (extractedName field path) else none := by
  induction parts with
  | nil => rfl
  | cons first parts ih =>
    unfold partPairs at ih ⊢
    rw [List.filterMap_cons]
    by_cases hp : path = first
    · subst hp
      cases hm : C.recordMember? (extractedName field path) with
      | none => simp [ih, hm]
      | some m => simp [pick_cons, eqv_memberChains.mpr rfl]
    · have miss : eqv (memberChain (.param owner) .json first) (memberChain (.param owner) .json path) =
          false := by
        rw [Bool.eq_false_iff]
        exact fun h => hp (eqv_memberChains.mp h).symm
      cases hm : C.recordMember? (extractedName field first) with
      | none => simp [ih, hp]
      | some m => simp [pick_cons, miss, ih, hp]

theorem pick_partPairs_none {x : Expr} (h : x.pathFrom? owner = none) :
    Rule.pick (partPairs C owner field parts) x = none := by
  rw [Option.eq_none_iff_forall_ne_some]
  intro r hr
  obtain ⟨a, ha, he⟩ := mem_of_pick hr
  obtain ⟨path, -, hm⟩ := List.mem_filterMap.mp ha
  obtain ⟨m, -, hm⟩ := Option.map_eq_some_iff.mp hm
  cases hm
  obtain ⟨q, hq, rfl⟩ := eqv_memberChain.mp he
  rw [pathFrom_of_id hq] at h
  cases h

theorem recordMember_eq (name : String) :
    C.recordMember? name = (C.ty.member? name).map fun t => .member C name t := rfl

/-- Where a member is read after both replacements, its type is one of what it is read from. -/
theorem member_reread {τ υ : Ty} (h : τ.Flat ∨ υ = τ) (name : String) :
    υ.Member name ((υ.member? name).getD ((τ.member? name).getD .json)) ∧
      (((τ.member? name).getD .json).Flat ∨
        (υ.member? name).getD ((τ.member? name).getD .json) = (τ.member? name).getD .json) := by
  rcases h with flat | rfl
  · rw [flat name]
    exact ⟨Ty.member_getD rfl υ name, .inl Ty.flat_json⟩
  · cases hm : υ.member? name with
    | none => exact ⟨.inr ⟨hm, rfl⟩, .inl Ty.flat_json⟩
    | some u => exact ⟨.inl hm, .inr rfl⟩

/-- A chain read from its longest part that the context holds. -/
theorem chain_reread (hparts : [] ∉ parts) (hty : owner.ty.Flat)
    (hroot : C.swap (Rule.pick [(.param owner, C)]) = C) (path : List String) :
    C.Chain (rereadPath (knownPart field parts C.ty) path)
        (((memberChain (.param owner) .json path).swap
          (Rule.pick (partPairs C owner field parts))).swap (Rule.pick [(.param owner, C)])) ∧
      (((memberChain (.param owner) .json path).swap
          (Rule.pick (partPairs C owner field parts))).ty.Flat ∨
        (((memberChain (.param owner) .json path).swap
          (Rule.pick (partPairs C owner field parts))).swap (Rule.pick [(.param owner, C)])).ty =
            ((memberChain (.param owner) .json path).swap
              (Rule.pick (partPairs C owner field parts))).ty) := by
  have miss : ∀ target name t,
      Rule.pick [(.param owner, C)] (Expr.member target name t) = none := fun _ _ _ => rfl
  induction path using List.reverseRec with
  | nil =>
    have none : Rule.pick (partPairs C owner field parts) (.param owner) = none := by
      have h : Rule.pick (partPairs C owner field parts) (memberChain (.param owner) .json []) = _ :=
        pick_partPairs []
      rwa [if_neg hparts] at h
    have here : (Expr.param owner).swap (Rule.pick [(.param owner, C)]) = C :=
      swap_some (by simp [pick_param, isParam])
    rw [memberChain, show (Expr.param owner).swap _ = .param owner from swap_none none, here]
    exact ⟨.nil, .inl hty⟩
  | append_singleton path name ih =>
    have pick : Rule.pick (partPairs C owner field parts)
        (memberChain (.param owner) .json (path ++ [name])) = _ := pick_partPairs (path ++ [name])
    have read : rereadPath (knownPart field parts C.ty) (path ++ [name]) =
        (knownPart field parts C.ty (path ++ [name])).elim
          (rereadPath (knownPart field parts C.ty) path ++ [name]) ([·]) := by
      unfold rereadPath
      rw [List.reverse_append]
      show rereadReversed _ (name :: path.reverse) = _
      cases hk : knownPart field parts C.ty (path ++ [name]) <;> simp [rereadReversed, hk]
    rw [read]
    rw [recordMember_eq] at pick
    unfold knownPart
    obtain ⟨chain, types⟩ := ih
    obtain ⟨member, types⟩ := member_reread types name
    by_cases hp : path ++ [name] ∈ parts
    · rw [if_pos hp] at pick
      cases hm : C.ty.member? (extractedName field (path ++ [name])) with
      | some u =>
        rw [hm] at pick
        rw [swap_some pick, swap_none (miss ..), mapParts, hroot, hm]
        simp only [hp, Option.isSome_some, and_self, if_true, Option.getD_some]
        refine ⟨.single _ _ (.inl hm), ?_⟩
        exact .inr trivial
      | none =>
        rw [hm] at pick
        rw [memberChain_concat] at pick ⊢
        rw [swap_none pick, mapParts, swap_none (miss ..), mapParts]
        simp only [Option.isSome_none, Bool.false_eq_true, and_false, if_false]
        exact ⟨.snoc name _ chain member, types⟩
    · rw [if_neg hp] at pick
      rw [memberChain_concat] at pick ⊢
      rw [swap_none pick, mapParts, swap_none (miss ..), mapParts]
      simp only [hp, false_and, if_false]
      exact ⟨.snoc name _ chain member, types⟩

theorem mem_foldl_addPath {paths known : List (List String)} {path : List String}
    (h : path ∈ paths.foldl (addPath field) known) : path ∈ known ∨ path ∈ paths := by
  induction paths generalizing known with
  | nil => exact .inl h
  | cons first paths ih =>
    rcases ih h with h | h
    · unfold addPath at h
      split at h
      · exact .inl h
      · rcases List.mem_append.mp h with h | h
        · exact .inl h
        · exact .inr (List.mem_singleton.mp h ▸ List.mem_cons_self)
    · exact .inr (List.mem_cons_of_mem _ h)

theorem nil_not_mem_partPaths {source : Resolve} (hs : source.Plain) :
    [] ∉ source.partPaths field := by
  cases source with
  | service name method args =>
    intro h
    rcases mem_foldl_addPath h with h | h
    · cases h
    · obtain ⟨a, ha, hp⟩ := List.mem_filterMap.mp h
      cases a <;> cases hp
      exact hs _ ha rfl
  | _ => exact List.not_mem_nil

theorem swap_noPairs {e : Expr} (he : e.Coherent) : e.swap (Rule.pick []) = e :=
  swap_self he fun _ _ => rfl

/-- A source over a context that holds parts of it, in place of its owner. -/
theorem Resolve.own_reread (field : String) {source : Resolve} (hs : source.Plain)
    (ho : Param.arguments.id ≠ owner.id) (hty : owner.ty.Flat) (hC : C.Coherent)
    (hid : owner.id ∉ C.ids) {t : Ty} (ht : t.hasRecord = false) :
    Own (· = .arguments) C (source.reread field C.ty)
        (((source.exprOver t owner .arguments).swap
          (Rule.pick (partPairs C owner field (source.partPaths field)))).swap
            (Rule.pick [(.param owner, C)])) ∧
      (((source.exprOver t owner .arguments).swap
          (Rule.pick (partPairs C owner field (source.partPaths field)))).swap
            (Rule.pick [(.param owner, C)])).ty = source.tyOver C.ty t := by
  have plain : (source.exprOver t owner .arguments).swap (Rule.pick []) =
      source.exprOver t owner .arguments := swap_noPairs (coherent_exprOver source hs t hty Param.flat_arguments)
  have single := Resolve.own_swap (C := C) hs ho ht
  cases source with
  | member path => exact plain.symm ▸ single
  | constant v => exact plain.symm ▸ single
  | expr e => exact hs.elim
  | service name method args =>
    have hroot : C.swap (Rule.pick [(.param owner, C)]) = C :=
      swap_self hC (pick_param_of_not_mem hid)
    have miss : ∀ x : Expr, x.isParam owner = false →
        Rule.pick [(.param owner, C)] x = none := fun x hx => by simp [pick_param, hx]
    generalize hparts : (Resolve.service name method args).partPaths field = parts
    have hnil : [] ∉ parts := hparts ▸ nil_not_mem_partPaths hs
    have call : (((Resolve.service name method args).exprOver t owner .arguments).swap
        (Rule.pick (partPairs C owner field parts))).swap (Rule.pick [(.param owner, C)]) =
        .invoke (.service name) method (args.map fun a => ((a.expr owner .arguments).swap
          (Rule.pick (partPairs C owner field parts))).swap (Rule.pick [(.param owner, C)])) t := by
      unfold Resolve.exprOver
      rw [swap_none (pick_partPairs_none rfl), mapParts, swap_leaf rfl (pick_partPairs_none rfl),
        swap_none (miss _ rfl), mapParts, swap_leaf rfl (miss _ rfl), List.map_map, List.map_map]
      rfl
    rw [call, Resolve.reread, hparts]
    refine ⟨.service name method t ?_ ht, rfl⟩
    refine List.forall₂_map_left_iff.mpr (List.forall₂_map_right_iff.mpr ?_)
    refine List.forall₂_same.mpr fun a _ => ?_
    cases a with
    | member path => exact .member (chain_reread hnil hty hroot path).1
    | argument n =>
      have first : (ServiceArg.argument n).expr owner .arguments =
          .member (.param .arguments) n .json := rfl
      rw [first, swap_none (pick_partPairs_none (by simp [pathFrom?, ho])), mapParts,
        swap_leaf rfl (pick_partPairs_none (by simp [pathFrom?, ho])), swap_none (miss _ rfl), mapParts,
        swap_leaf rfl (miss _ (by simp [isParam, ho]))]
      exact .argument n rfl
    | constant v =>
      have first : (ServiceArg.constant v).expr owner .arguments = .constant v .json := rfl
      rw [first, swap_leaf rfl (pick_partPairs_none rfl), swap_leaf rfl (miss _ rfl)]
      exact .constant v .json

end PartPairs

end FieldPlan
