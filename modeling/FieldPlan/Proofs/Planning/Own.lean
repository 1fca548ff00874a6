import FieldPlan.Proofs.Planning.Rendering
import FieldPlan.Proofs.Wanted.Reread

/-!
# Expressions over a context

The expression of a field is made of copies of its context, and swapping parts that do not occur in
the context changes it only around these copies.

* `Expr.Over` : what is made of copies of a context;
* `Expr.Over.steady`, `Expr.swap_context` : swaps that leave the context alone;
* `Expr.chain_swap`, `Resolve.own_swap` : a source over a context in place of its owner;
* `Expr.Own.swap_record` : the parameter of the record of arguments replaced by another one.
-/

namespace FieldPlan

namespace Expr

variable {f : Expr → Option Expr} {C : Expr}

/-! ## Copies of a context -/

/-- Made of copies of a context by members and calls. -/
inductive Over (C : Expr) : Expr → Prop
  | context : Over C C
  | param (p : Param) : Over C (.param p)
  | constant (v : Json) (t : Ty) : Over C (.constant v t)
  | service (name : ServiceName) : Over C (.service name)
  | member {target : Expr} (name : String) (t : Ty) : Over C target → Over C (.member target name t)
  | invoke {r : Expr} {args : List Expr} (method : String) (t : Ty) :
    Over C r → (∀ a ∈ args, Over C a) → Over C (.invoke r method args t)

theorem swap_context (hC : C.Coherent) (hf : ∀ x ∈ C.subterms, f x = none) {x : Expr}
    (hx : x ∈ C.subterms) : x.swap f = x :=
  swap_self (hC.subterm hx) fun _ hy => hf _ (subterms_trans hx hy)

theorem Over.steady {e : Expr} (h : Over C e) (hC : C.Coherent)
    (hf : ∀ x ∈ C.subterms, f x = none) : e.Steady f := by
  have context : C.Steady f := by
    intro x hx _
    have same : x.mapParts (swap f) = x := mapParts_self (hC x hx) fun c hc =>
      swap_context hC hf (subterms_trans hx (mem_subterms_of_child hc (self_mem_subterms c)))
    rw [same]
    exact hC x hx
  induction h with
  | context => exact context
  | param | constant | service =>
    intro x hx _
    cases List.mem_singleton.mp hx
    trivial
  | member name t _ ih =>
    intro x hx hn
    rcases mem_subterms.mp hx with rfl | ⟨c, hc, hxc⟩
    · intro u hu
      simp [hu]
    · cases List.mem_singleton.mp hc
      exact ih x hxc hn
  | invoke method t _ _ ihr iha =>
    intro x hx hn
    rcases mem_subterms.mp hx with rfl | ⟨c, hc, hxc⟩
    · trivial
    · rcases List.mem_cons.mp hc with rfl | hc
      · exact ihr x hxc hn
      · exact iha c hc x hxc hn

theorem Over.swap {e : Expr} (h : Over C e) (hC : C.Coherent) (hf : ∀ x ∈ C.subterms, f x = none)
    (hr : ∀ x r, f x = some r → Over C r) : Over C (e.swap f) := by
  have here : ∀ x : Expr, x.children = [] → Over C x → Over C (x.swap f) := fun x hx ho => by
    cases h : f x with
    | some r =>
      rw [swap_some h]
      exact hr x r h
    | none =>
      rw [swap_leaf hx h]
      exact ho
  induction h with
  | context =>
    rw [swap_context hC hf (self_mem_subterms C)]
    exact .context
  | param p => exact here _ rfl (.param p)
  | constant v t => exact here _ rfl (.constant v t)
  | service name => exact here _ rfl (.service name)
  | @member target name t _ ih =>
    cases h : f (.member target name t) with
    | some r =>
      rw [swap_some h]
      exact hr _ r h
    | none =>
      rw [swap_none h]
      exact .member name _ ih
  | @invoke r args method t _ _ ihr iha =>
    cases h : f (.invoke r method args t) with
    | some r =>
      rw [swap_some h]
      exact hr _ r h
    | none =>
      rw [swap_none h]
      refine .invoke method t ihr fun a ha => ?_
      obtain ⟨b, hb, rfl⟩ := List.mem_map.mp ha
      exact iha b hb

/-! ## Sources -/

theorem over_memberChain {root : Expr} (h : Over C root) (t : Ty) (path : List String) :
    Over C (memberChain root t path) := by
  induction path generalizing root with
  | nil => exact h
  | cons name rest ih =>
    cases rest with
    | nil => exact .member name t h
    | cons next rest => exact ih (.member name .json h)

theorem over_exprOver (source : Resolve) (hs : source.Plain) (t : Ty) (owner arguments : Param) :
    Over C (source.exprOver t owner arguments) := by
  cases source with
  | member path => exact over_memberChain (.param owner) t path
  | service name method args =>
    refine .invoke method t (.service name) fun e he => ?_
    obtain ⟨a, -, rfl⟩ := List.mem_map.mp he
    cases a with
    | member path => exact over_memberChain (.param owner) .json path
    | argument name => exact .member name .json (.param arguments)
    | constant v => exact .constant v .json
  | constant v => exact .constant v t
  | expr e => exact hs.elim

theorem coherent_memberChain {root : Expr} (h : root.Coherent) (hty : root.ty.Flat) (t : Ty)
    (path : List String) : (memberChain root t path).Coherent := by
  induction path generalizing root with
  | nil => exact h
  | cons name rest ih =>
    have step : ∀ t, (Expr.member root name t).Coherent := fun t => by
      rw [coherent_iff]
      refine ⟨fun u hu => ?_, fun c hc => ?_⟩
      · rw [hty name] at hu
        cases hu
      · cases List.mem_singleton.mp hc
        exact h
    cases rest with
    | nil => exact step t
    | cons next rest => exact ih (step .json) Ty.flat_json

theorem coherent_constant (v : Json) (t : Ty) : (Expr.constant v t).Coherent := by
  rw [coherent_iff]
  simp [Fits, children]

theorem coherent_service (name : ServiceName) : (Expr.service name).Coherent := by
  rw [coherent_iff]
  simp [Fits, children]

theorem coherent_recordMember {p : Param} (h : p.ty.Flat) (name : String) (t : Ty) :
    (Expr.member (.param p) name t).Coherent := by
  rw [coherent_iff]
  refine ⟨fun u hu => ?_, fun c hc => ?_⟩
  · rw [show (Expr.param p).ty = p.ty from rfl, h name] at hu
    cases hu
  · cases List.mem_singleton.mp hc
    exact coherent_param p

theorem coherent_invoke {r : Expr} {method : String} {args : List Expr} {t : Ty} (hr : r.Coherent)
    (ha : ∀ a ∈ args, a.Coherent) : (Expr.invoke r method args t).Coherent := by
  rw [coherent_iff]
  refine ⟨trivial, fun c hc => ?_⟩
  rcases List.mem_cons.mp hc with rfl | hc
  · exact hr
  · exact ha c hc

theorem source_memberChain {root : Expr} (h : root.Source) (t : Ty) (path : List String) :
    (memberChain root t path).Source := by
  induction path generalizing root with
  | nil => exact h
  | cons name rest ih =>
    cases rest with
    | nil => exact .member name t h
    | cons next rest => exact ih (.member name .json h)

theorem source_exprOver (source : Resolve) (hs : source.Plain) (t : Ty) (owner arguments : Param) :
    (source.exprOver t owner arguments).Source := by
  cases source with
  | member path => exact source_memberChain (.param owner) t path
  | service name method args =>
    refine .call method t (.inl ⟨name, rfl⟩) fun e he => ?_
    obtain ⟨a, -, rfl⟩ := List.mem_map.mp he
    cases a with
    | member path => exact source_memberChain (.param owner) .json path
    | argument name => exact .member name .json (.param arguments)
    | constant v => exact .constant v .json
  | constant v => exact .constant v t
  | expr e => exact hs.elim

theorem coherent_exprOver (source : Resolve) (hs : source.Plain) (t : Ty) {owner arguments : Param}
    (ho : owner.ty.Flat) (ha : arguments.ty.Flat) : (source.exprOver t owner arguments).Coherent := by
  cases source with
  | member path => exact coherent_memberChain (coherent_param owner) ho t path
  | service name method args =>
    refine coherent_invoke (coherent_service name) fun e he => ?_
    obtain ⟨a, -, rfl⟩ := List.mem_map.mp he
    cases a with
    | member path => exact coherent_memberChain (coherent_param owner) ho .json path
    | argument name => exact coherent_recordMember ha name .json
    | constant v => exact coherent_constant v .json
  | constant v => exact coherent_constant v t
  | expr e => exact hs.elim

/-! ## Chains in place of the owner -/

/-- A chain over what is replaced by the end of a chain. -/
theorem chain_swap (hf : ∀ target name t, f (.member target name t) = none) (root : Expr)
    (done : List String) (h : C.Chain done (root.swap f)) {t : Ty} (ht : t.hasRecord = false)
    (path : List String) :
    C.Chain (done ++ path) ((memberChain root t path).swap f) ∧
      ((memberChain root t path).swap f).ty = (root.swap f).ty.along t path := by
  induction path generalizing root done with
  | nil => exact ⟨by simpa [memberChain] using h, rfl⟩
  | cons name rest ih =>
    have step : ∀ t : Ty, t.hasRecord = false →
        C.Chain (done ++ [name]) ((Expr.member root name t).swap f) := by
      intro t ht
      rw [swap_none (hf root name t)]
      exact .snoc name _ h (Ty.member_getD ht _ name)
    cases rest with
    | nil =>
      refine ⟨step t ht, ?_⟩
      rw [memberChain, swap_none (hf root name t)]
      rfl
    | cons next rest =>
      rw [memberChain_cons]
      obtain ⟨hc, hty⟩ := ih _ _ (step .json rfl)
      rw [List.append_assoc] at hc
      refine ⟨hc, hty.trans ?_⟩
      rw [swap_none (hf root name .json)]
      rfl

theorem pick_cons (a r : Expr) (pairs : List (Expr × Expr)) (x : Expr) :
    Rule.pick ((a, r) :: pairs) x = if eqv a x then some r else Rule.pick pairs x := by
  unfold Rule.pick
  rw [List.find?_cons]
  show Option.map _ (match eqv a x with | true => _ | false => _) = _
  cases eqv a x <;> rfl

theorem pick_param (p : Param) (r x : Expr) :
    Rule.pick [(.param p, r)] x = if x.isParam p then some r else none := by
  rw [pick_cons]
  cases x with
  | param q =>
    have same : (p.id == q.id) = (q.id == p.id) := BEq.comm
    simp only [eqv, isParam, same]
    rfl
  | _ => rfl

theorem pick_param_of_not_mem {p : Param} {r e : Expr} (h : p.id ∉ e.ids) :
    ∀ x ∈ e.subterms, Rule.pick [(.param p, r)] x = none := by
  intro x hx
  rw [pick_param, if_neg]
  intro hp
  obtain ⟨q, rfl, hq⟩ := isParam_iff.mp hp
  exact h (mem_ids.mpr ⟨_, hx, q, rfl, hq⟩)

/-! ## What the value of a field itself is made of -/

section Parts

variable {Record Record' : Param → Prop} {source : Resolve} {e : Expr}

theorem Chain.single (name : String) (t : Ty) (h : C.ty.Member name t) :
    C.Chain [name] (.member C name t) := .snoc name t .nil h

theorem Chain.coherent {path : List String} (h : C.Chain path e) (hC : C.Coherent) :
    e.Coherent := by
  induction h with
  | nil => exact hC
  | snoc name t _ ht ih =>
    rw [coherent_iff]
    refine ⟨fun u hu => ht.eq hu, fun c hc => ?_⟩
    cases List.mem_singleton.mp hc
    exact ih

theorem Chain.ids {path : List String} (h : C.Chain path e) : e.ids = C.ids := by
  induction h with
  | nil => rfl
  | snoc name t _ _ ih =>
    rw [← ih]
    simp [Expr.ids, subterms, own?, bound?]

theorem Chain.binders {path : List String} (h : C.Chain path e) : e.binders = C.binders := by
  induction h with
  | nil => rfl
  | snoc name t _ _ ih =>
    rw [← ih]
    simp [Expr.binders, subterms, bound?]

theorem Chain.called {path : List String} (h : C.Chain path e) (hC : C.Called) : e.Called := by
  induction h with
  | nil => exact hC
  | snoc name t _ _ ih => exact .member name t ih

theorem Chain.mem_services {path : List String} (h : C.Chain path e) {name : ServiceName} :
    name ∈ e.services ↔ name ∈ C.services := by
  induction h with
  | nil => rfl
  | snoc name t _ _ ih =>
    rw [mem_services_iff, ← ih]
    simp [children]

theorem Chain.served_iff {path : List String} (h : C.Chain path e) :
    e.Served ↔ C.Served := served_congr fun _ => h.mem_services

theorem Input.coherent {a : ServiceArg} (h : Input Record C a e) (hC : C.Coherent)
    (hR : ∀ p, Record p → p.ty.Flat) : e.Coherent := by
  cases h with
  | member h => exact h.coherent hC
  | argument name hp => exact coherent_recordMember (hR _ hp) name .json
  | constant v t => exact coherent_constant v t

theorem Own.coherent (h : Own Record C source e) (hC : C.Coherent)
    (hR : ∀ p, Record p → p.ty.Flat) : e.Coherent := by
  cases h with
  | member h => exact h.coherent hC
  | service name method t h =>
    refine coherent_invoke (coherent_service name) fun a ha => ?_
    obtain ⟨arg, -, h⟩ := exists_of_forall₂ h ha
    exact h.coherent hC hR
  | constant v t => exact coherent_constant v t

theorem Chain.overContext {path : List String} (h : C.Chain path e) : Over C e := by
  induction h with
  | nil => exact .context
  | snoc name t _ _ ih => exact .member name t ih

theorem Own.overContext (h : Own Record C source e) : Over C e := by
  cases h with
  | member h => exact h.overContext
  | service name method t h =>
    refine .invoke method t (.service name) fun a ha => ?_
    obtain ⟨arg, -, h⟩ := exists_of_forall₂ h ha
    cases h with
    | member h => exact h.overContext
    | @argument p n _ => exact .member n .json (.param p)
    | constant v t => exact .constant v t
  | constant v t => exact .constant v t

theorem Input.ids {a : ServiceArg} (h : Input Record C a e) {i : Nat} (hi : i ∈ e.ids) :
    i ∈ C.ids ∨ ∃ p, Record p ∧ p.id = i := by
  cases h with
  | member h => exact .inl (h.ids ▸ hi)
  | @argument p name hp =>
    refine .inr ⟨p, hp, ?_⟩
    simpa [Expr.ids, subterms, own?, bound?, eq_comm] using hi
  | constant v t => cases hi

theorem Own.ids (h : Own Record C source e) {i : Nat} (hi : i ∈ e.ids) :
    i ∈ C.ids ∨ ∃ p, Record p ∧ p.id = i := by
  cases h with
  | member h => exact .inl (h.ids ▸ hi)
  | service name method t h =>
    rcases mem_ids_iff.mp hi with ⟨p, hp, -⟩ | ⟨c, hc, hi⟩
    · cases hp
    · rcases List.mem_cons.mp hc with rfl | hc
      · cases hi
      · obtain ⟨arg, -, h⟩ := exists_of_forall₂ h hc
        exact h.ids hi
  | constant v t => cases hi

theorem Input.binders {a : ServiceArg} (h : Input Record C a e) {i : Nat} (hi : i ∈ e.binders) :
    i ∈ C.binders := by
  cases h with
  | member h => exact h.binders ▸ hi
  | argument | constant => cases hi

theorem Own.binders (h : Own Record C source e) {i : Nat} (hi : i ∈ e.binders) :
    i ∈ C.binders := by
  cases h with
  | member h => exact h.binders ▸ hi
  | service name method t h =>
    rcases mem_binders_iff.mp hi with ⟨p, hp, -⟩ | ⟨c, hc, hi⟩
    · cases hp
    · rcases List.mem_cons.mp hc with rfl | hc
      · cases hi
      · obtain ⟨arg, -, h⟩ := exists_of_forall₂ h hc
        exact h.binders hi
  | constant v t => cases hi

/-- The parameters of the record of arguments occur. -/
theorem Own.occurring (h : Own Record C source e) :
    Own (fun p => Record p ∧ .param p ∈ e.subterms) C source e := by
  cases h with
  | member h => exact .member h
  | @service name method t args es h bare =>
    refine .service name method t ?_ bare
    have parts : ∀ x ∈ es, ∀ y ∈ x.subterms,
        y ∈ (Expr.invoke (.service name) method es t).subterms := fun x hx y hy =>
      mem_subterms_of_child (List.mem_cons_of_mem _ hx) hy
    generalize Expr.invoke (.service name) method es t = whole at parts
    induction h with
    | nil => exact .nil
    | @cons a e args es ha _ ih =>
      refine .cons ?_ (ih fun x hx => parts x (List.mem_cons_of_mem _ hx))
      cases ha with
      | member h => exact .member h
      | @argument p n hp =>
        exact .argument n ⟨hp, parts _ List.mem_cons_self _
          (mem_subterms_of_child List.mem_cons_self (self_mem_subterms _))⟩
      | constant v t => exact .constant v t
  | constant v t bare => exact .constant v t bare

theorem Own.mono (h : Own Record C source e) (hR : ∀ p, Record p → Record' p) :
    Own Record' C source e := by
  cases h with
  | member h => exact .member h
  | service name method t h bare =>
    refine .service name method t (h.imp fun a e ha => ?_) bare
    cases ha with
    | member h => exact .member h
    | argument n hp => exact .argument n (hR _ hp)
    | constant v t => exact .constant v t
  | constant v t bare => exact .constant v t bare

/-- The parameter of the record of arguments replaced by one of its type. -/
theorem Own.swap_record {p q : Param} (h : Own (· = p) C source e) (hC : C.Coherent)
    (hp : p.id ∉ C.ids) (hpt : p.ty.Flat) (hq : q.ty = p.ty) :
    Own (· = q) C source (e.swap (Rule.pick [(.param p, .param q)])) ∧
      (e.swap (Rule.pick [(.param p, .param q)])).ty = e.ty ∧
      ((e.swap (Rule.pick [(.param p, .param q)])).Served → e.Served) ∧
      (e.Called → (e.swap (Rule.pick [(.param p, .param q)])).Called) := by
  have chain : ∀ {path e}, C.Chain path e →
      e.swap (Rule.pick [(.param p, .param q)]) = e := fun {path e} h =>
    swap_self (h.coherent hC) (pick_param_of_not_mem (h.ids ▸ hp))
  have miss : ∀ x : Expr, x.isParam p = false →
      Rule.pick [(.param p, .param q)] x = none := fun x hx => by simp [pick_param, hx]
  cases h with
  | member h =>
    rw [chain h]
    exact ⟨.member h, rfl, id, id⟩
  | @service name method t args es h bare =>
    rw [swap_none (miss _ rfl), mapParts, swap_none (miss (.service name) rfl)]
    refine ⟨.service name method t (List.forall₂_map_right_iff.mpr (h.imp fun a e ha => ?_)) bare, rfl,
      fun _ => ⟨name, mem_subterms_of_child List.mem_cons_self (self_mem_subterms _)⟩,
      fun _ => .call _ _ _ _⟩
    cases ha with
    | member h =>
      rw [chain h]
      exact .member h
    | @argument r n hr =>
      subst hr
      have hit : (Expr.param r).swap (Rule.pick [(.param r, .param q)]) = .param q :=
        swap_some (by simp [pick_param, isParam])
      rw [swap_none (miss _ rfl), mapParts, hit, Expr.ty, hq, hpt n]
      exact .argument n rfl
    | constant v t =>
      rw [swap_none (miss (.constant v t) rfl)]
      exact .constant v t
  | constant v t bare =>
    rw [swap_none (miss (.constant v t) rfl)]
    exact ⟨.constant v t bare, rfl, id, id⟩

end Parts

end Expr

/-! ## Sources in place of the owner -/

namespace Resolve

open Expr

variable {source : Resolve} {owner : Param} {C : Expr}

/-- A source over a context in place of its owner. -/
theorem own_swap (hs : source.Plain) (ho : Param.arguments.id ≠ owner.id) {t : Ty}
    (ht : t.hasRecord = false) :
    Own (· = .arguments) C source
        ((source.exprOver t owner .arguments).swap (Rule.pick [(.param owner, C)])) ∧
      ((source.exprOver t owner .arguments).swap (Rule.pick [(.param owner, C)])).ty =
        source.tyOver C.ty t := by
  have root : (Expr.param owner).swap (Rule.pick [(.param owner, C)]) = C :=
    swap_some (by simp [pick_param, isParam])
  have miss : ∀ x : Expr, x.isParam owner = false →
      Rule.pick [(.param owner, C)] x = none := fun x hx => by simp [pick_param, hx]
  have chain := fun {t : Ty} (ht : t.hasRecord = false) path => chain_swap (C := C)
    (fun target name t => miss (.member target name t) rfl) (.param owner) [] (root.symm ▸ .nil) ht path
  cases source with
  | member path =>
    obtain ⟨hc, hty⟩ := chain ht path
    exact ⟨.member hc, hty.trans (by rw [root]; rfl)⟩
  | service name method args =>
    have call : (((Resolve.service name method args).exprOver t owner .arguments).swap
        (Rule.pick [(.param owner, C)])) = .invoke (.service name) method
          (args.map fun a => (a.expr owner .arguments).swap (Rule.pick [(.param owner, C)])) t := by
      unfold exprOver
      rw [swap_none (miss _ rfl), mapParts, List.map_map, swap_none (miss (.service name) rfl)]
      rfl
    rw [call]
    refine ⟨.service name method t (List.forall₂_map_right_iff.mpr ?_) ht, rfl⟩
    refine List.forall₂_same.mpr fun a _ => ?_
    cases a with
    | member path => exact .member (chain (t := .json) rfl path).1
    | argument name =>
      have same : ((ServiceArg.argument name).expr owner .arguments).swap
          (Rule.pick [(.param owner, C)]) = .member (.param .arguments) name .json := by
        unfold ServiceArg.expr
        rw [swap_none (miss _ rfl), mapParts, swap_none (miss _ (by simp [isParam, ho]))]
        rfl
      rw [same]
      exact .argument name rfl
    | constant v =>
      rw [ServiceArg.expr, swap_none (miss _ rfl)]
      exact .constant v .json
  | constant v =>
    rw [exprOver, swap_none (miss _ rfl)]
    exact ⟨.constant v t ht, rfl⟩
  | expr e => exact hs.elim

end Resolve

end FieldPlan
