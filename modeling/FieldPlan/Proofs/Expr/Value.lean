import FieldPlan.Plan.Eval
import FieldPlan.Proofs.Success

/-!
# Values of expressions under services that are functions

Where a service answers by a function of its method and arguments, evaluation neither reads nor
changes the state of the services, and a value is all there is to it.

* `Answers`, `Services.AnswerBy` : the answers of services, and services that give them;
* `Scope`, `Expr.value` : what parameters mean, and the value of an expression, `none` if there is
  none;
* `Computes`, `Expr.eval_computes` : evaluation gives the value and leaves the state alone, and fails
  where there is none.
-/

namespace FieldPlan

/-- The answers of services that are functions of the method and the arguments. -/
abbrev Answers := ServiceName → String → List Json → Except ServiceError Json

/-- All services are there and give these answers. -/
def Services.AnswerBy {σ : Type} (services : Services σ) (answers : Answers) : Prop :=
  ∀ name, ∃ s, services name = some s ∧
    ∀ method args state, s method args state = (answers name method args, state)

/-- Arguments that are equal as JSON values get the same answer. -/
def Answers.Respect (answers : Answers) : Prop :=
  ∀ name method as bs, Json.eqvItems as bs = true → answers name method as = answers name method bs

/-! ## Scopes -/

/-- What a parameter means. -/
inductive Meaning where
  | value (v : Json)
  | service (name : ServiceName)

abbrev Scope := Nat → Option Meaning

namespace Scope

def bind (ρ : Scope) (p : Param) (v : Json) : Scope := fun i => if i = p.id then some (.value v) else ρ i

def value (ρ : Scope) (p : Param) : Option Json :=
  match ρ p.id with
  | some (.value v) => some v
  | _ => none

def receiver (ρ : Scope) : Expr → Option ServiceName
  | .service s => some s
  | .param p =>
    match ρ p.id with
    | some (.service s) => some s
    | _ => none
  | _ => none

@[simp] theorem value_bind (ρ : Scope) (p : Param) (v : Json) : (ρ.bind p v).value p = some v := by
  simp [bind, value]

end Scope

/-! ## Values -/

/-- A member of a value; null has every member, and an absent member is null. -/
def Json.readMember (name : String) : Json → Option Json
  | .null => some .null
  | .obj members => some ((Dict.find? members name).getD .null)
  | _ => none

/-- A sort key: its direction and its value on an item. -/
structure ItemKey where
  direction : Direction
  value : Json → Option Json

def Json.sortBy (keys : List ItemKey) : Json → Option Json
  | .null => some .null
  | .arr items => do
    let keyed ← items.mapM fun item => do
      let values ← keys.mapM fun key => key.value item
      pure (values, item)
    pure (.arr (sortKeyed (keys.map (·.direction)) keyed))
  | _ => none

def sortValue (keys : List ItemKey) (source : Option Json) : Option Json := do
  let v ← source
  match keys with
  | [] => pure v
  | _ => v.sortBy keys

def sliceItems (function : Builtin) (items : List Json) (count : Json) : Option Json :=
  count.toNat?.map fun n => .arr (if function = .skip then items.drop n else items.take n)

mutual

/-- The value of an expression, sorted by the keys around it. -/
def Expr.valueUnder (answers : Answers) : Expr → Scope → List ItemKey → Option Json
  | .param p, ρ, keys => sortValue keys (ρ.value p)
  | .constant v _, _, keys => sortValue keys (some v)
  | .null _, _, keys => sortValue keys (some .null)
  | .service _, _, keys => sortValue keys none
  | .member target name _, ρ, keys => sortValue keys do
    Json.readMember name (← target.valueUnder answers ρ [])
  | .condition test a b, ρ, keys => sortValue keys do
    match ← test.valueUnder answers ρ [] with
    | .bool true => a.valueUnder answers ρ []
    | .bool false => b.valueUnder answers ρ []
    | _ => none
  | .equal a b, ρ, keys => sortValue keys do
    let v ← a.valueUnder answers ρ []
    let w ← b.valueUnder answers ρ []
    pure (.bool (v == w))
  | .builtin (.thenBy d) (list :: key :: _), ρ, keys =>
    list.valueUnder answers ρ (⟨d, key.keyValue answers ρ⟩ :: keys)
  | .builtin (.orderBy d) (list :: key :: _), ρ, keys => do
    Json.sortBy (⟨d, key.keyValue answers ρ⟩ :: keys) (← list.valueUnder answers ρ [])
  | .builtin (.thenBy _) _, _, _ => none
  | .builtin (.orderBy _) _, _, _ => none
  | .builtin _ [], _, _ => none
  | .builtin .count (list :: _), ρ, keys => sortValue keys do
    match ← list.valueUnder answers ρ [] with
    | .null => pure (.int 0)
    | .arr items => pure (.int items.length)
    | _ => none
  | .builtin function (list :: rest), ρ, keys => sortValue keys do
    match ← list.valueUnder answers ρ [] with
    | .null => pure .null
    | .arr items => sliceItems function items (← Expr.valueHead answers rest ρ)
    | _ => none
  | .invoke r method args _, ρ, keys => sortValue keys do
    let name ← ρ.receiver r
    (answers name method (← Expr.valueList answers args ρ)).toOption
  | .lambda _ _, _, keys => sortValue keys none
  | .record _ fields, ρ, keys => sortValue keys do
    pure (.obj (Dict.ofList (← Expr.valueFields answers fields ρ)))
  | .select source p body, ρ, keys => sortValue keys do
    match ← source.valueUnder answers ρ [] with
    | .null => pure .null
    | .arr items => do
      pure (.arr (← items.mapM fun item => body.valueUnder answers (ρ.bind p item) []))
    | _ => none
  | .letIn p value body, ρ, keys => sortValue keys do
    let v ← value.valueUnder answers ρ []
    body.valueUnder answers (ρ.bind p v) []

def Expr.keyValue (answers : Answers) : Expr → Scope → Json → Option Json
  | .lambda p body, ρ, item => body.valueUnder answers (ρ.bind p item) []
  | _, _, _ => none

/-- The value of the first expression, null when there is none. -/
def Expr.valueHead (answers : Answers) : List Expr → Scope → Option Json
  | [], _ => some .null
  | e :: _, ρ => e.valueUnder answers ρ []

def Expr.valueList (answers : Answers) : List Expr → Scope → Option (List Json)
  | [], _ => some []
  | e :: es, ρ => do
    let v ← e.valueUnder answers ρ []
    let vs ← Expr.valueList answers es ρ
    pure (v :: vs)

def Expr.valueFields (answers : Answers) :
    List (String × Expr) → Scope → Option (List (String × Json))
  | [], _ => some []
  | (name, e) :: fields, ρ => do
    let v ← e.valueUnder answers ρ []
    let vs ← Expr.valueFields answers fields ρ
    pure ((name, v) :: vs)

end

/-- The value of an expression. -/
def Expr.value (answers : Answers) (e : Expr) (ρ : Scope) : Option Json := e.valueUnder answers ρ []

/-! ## Computations with a value -/

section Computes

variable {σ α β : Type}

/-- A computation that leaves the state alone and gives a value, or fails when there is none. -/
def Computes (x : Exec σ α) : Option α → Prop
  | some a => ∀ state, x state = (.ok a, state)
  | none => ∀ state, ∃ e, x state = (.error e, state)

namespace Computes

theorem pure (a : α) : Computes (Pure.pure a : Exec σ α) (some a) := fun _ => rfl

theorem eq_pure {x : Exec σ α} {a : α} (h : Computes x (some a)) : x = Pure.pure a := funext h

theorem throw (e : ExecError) : Computes (MonadExcept.throw e : Exec σ α) none := fun _ => ⟨e, rfl⟩

theorem stop {x : Exec σ α} (hx : Computes x none) (k : α → Exec σ β) :
    Computes (x >>= k) none := by
  intro state
  obtain ⟨e, he⟩ := hx state
  exact ⟨e, by rw [exec_bind, he]⟩

theorem bind {x : Exec σ α} {r : Option α} {k : α → Exec σ β} {g : α → Option β}
    (hx : Computes x r) (hk : ∀ a, Computes (k a) (g a)) : Computes (x >>= k) (r.bind g) := by
  cases r with
  | none => exact stop hx k
  | some a =>
    have run : ∀ state, (x >>= k) state = k a state := fun state => exec_bind_ok (hx state)
    have ha := hk a
    simp only [Option.bind_some]
    cases hg : g a with
    | none =>
      intro state
      rw [run]
      exact (hg ▸ ha) state
    | some b =>
      intro state
      rw [run]
      exact (hg ▸ ha) state

theorem map {x : Exec σ α} {r : Option α} (f : α → β) (hx : Computes x r) :
    Computes (x >>= fun a => Pure.pure (f a)) (r.map f) := by
  rw [Option.map_eq_bind]
  exact bind hx fun a => pure (f a)

theorem mapM {γ : Type} {f : γ → Exec σ α} {g : γ → Option α} (h : ∀ c, Computes (f c) (g c))
    (cs : List γ) : Computes (cs.mapM f) (cs.mapM g) := by
  induction cs with
  | nil => exact pure []
  | cons c cs ih =>
    rw [List.mapM_cons, List.mapM_cons]
    exact bind (h c) fun a => bind ih fun as => pure (a :: as)

end Computes

end Computes

/-! ## Evaluation gives the value -/

def Slot.meaning {σ : Type} : Slot σ → Meaning
  | .value v => .value v
  | .service name _ => .service name

/-- What the numbers of parameters mean in an environment. -/
def Env.scope {σ : Type} (env : Env σ) : Scope := fun i =>
  (env.find? fun e => e.1 == i).map (·.2.meaning)

/-- The services of an environment are the ones of these names. -/
def Env.From {σ : Type} (services : Services σ) (env : Env σ) : Prop :=
  ∀ e ∈ env, ∀ name s, e.2 = .service name s → services name = some s

section Evaluation

variable {σ : Type} {services : Services σ} {answers : Answers} {env : Env σ}

theorem Env.scope_bind (env : Env σ) (p : Param) (v : Json) :
    (env.bind p v).scope = env.scope.bind p v := by
  funext i
  by_cases h : i = p.id
  · subst h; simp [Env.scope, Env.bind, Scope.bind, Slot.meaning]
  · simp [Env.scope, Env.bind, Scope.bind, h, Ne.symm h]

theorem Env.From.bind (h : env.From services) (p : Param) (v : Json) :
    (env.bind p v).From services := by
  intro e he
  rcases List.mem_cons.mp he with rfl | he
  · intro _ _ hs; cases hs
  · exact h e he

theorem Env.slot_eq (env : Env σ) (p : Param) :
    env.slot p = match env.find? fun e => e.1 == p.id with
      | some e => pure e.2
      | none => throw (.unboundParameter p.name) := rfl

theorem Env.value_computes (env : Env σ) (p : Param) :
    Computes (env.value p) (env.scope.value p) := by
  unfold Env.value Scope.value Env.scope
  rw [Env.slot_eq]
  cases env.find? fun e => e.1 == p.id with
  | none => exact Computes.throw _
  | some e =>
    rcases e with ⟨_, _ | _⟩
    · exact Computes.pure _
    · exact Computes.throw _

/-- Keys that compute what pure keys say. -/
def KeysCompute (keys : List (SortKey σ)) (pureKeys : List ItemKey) : Prop :=
  List.Forall₂ (fun k l => k.direction = l.direction ∧ ∀ item, Computes (k.value item) (l.value item))
    keys pureKeys

theorem keyValues_computes {keys : List (SortKey σ)} {pureKeys : List ItemKey}
    (h : KeysCompute keys pureKeys) (item : Json) :
    Computes (keyValues keys item) (pureKeys.mapM fun key => key.value item) := by
  unfold keyValues
  induction h with
  | nil => exact Computes.pure []
  | cons hk _ ih =>
    rw [List.mapM_cons, List.mapM_cons]
    exact Computes.bind (hk.2 item) fun a => Computes.bind ih fun as => Computes.pure (a :: as)

theorem KeysCompute.directions {keys : List (SortKey σ)} {pureKeys : List ItemKey}
    (h : KeysCompute keys pureKeys) : keys.map (·.direction) = pureKeys.map (·.direction) := by
  induction h with
  | nil => rfl
  | cons hk _ ih => simp [hk.1, ih]

theorem sortBy_computes {keys : List (SortKey σ)} {pureKeys : List ItemKey}
    (h : KeysCompute keys pureKeys) (v : Json) : Computes (sortBy keys v) (v.sortBy pureKeys) := by
  cases v with
  | null => exact Computes.pure _
  | arr items =>
    refine Computes.bind (Computes.mapM (fun item => ?_) items) fun keyed => ?_
    · exact Computes.bind (keyValues_computes h item) fun values => Computes.pure _
    · rw [h.directions]
      exact Computes.pure _
  | _ => exact Computes.throw _

theorem Expr.sorted_nil (source : Exec σ Json) : sorted [] source = source := bind_pure source

theorem sorted_computes {keys : List (SortKey σ)} {pureKeys : List ItemKey}
    (h : KeysCompute keys pureKeys) {source : Exec σ Json} {v : Option Json}
    (hs : Computes source v) : Computes (sorted keys source) (sortValue pureKeys v) := by
  refine Computes.bind hs fun v => ?_
  cases h with
  | nil => exact Computes.pure v
  | cons hk hks => exact sortBy_computes (List.Forall₂.cons hk hks) v

theorem readMember_computes (name : String) (v : Json) :
    Computes (readMember (σ := σ) name v) (v.readMember name) := by
  cases v with
  | null => exact Computes.pure _
  | obj _ => exact Computes.pure _
  | _ => exact Computes.throw _

theorem slice_computes (function : Builtin) (items : List Json) (count : Json) :
    Computes (slice (σ := σ) function items count) (sliceItems function items count) := by
  unfold slice sliceItems
  cases count.toNat? with
  | none => exact Computes.throw _
  | some n => exact Computes.pure _

/-! ### Calls -/

theorem call_computes {name : ServiceName} {s : Service σ}
    (h : ∀ method args state, s method args state = (answers name method args, state))
    (method : String) (args : List Json) :
    Computes (call name s method args) (answers name method args).toOption := by
  cases ha : answers name method args with
  | error e =>
    intro state
    refine ⟨.service name method e, ?_⟩
    simp only [call, h, ha]
  | ok v =>
    intro state
    simp only [call, h, ha]

theorem invoke_computes (hs : services.AnswerBy answers) (he : env.From services) (r : Expr)
    (method : String) {args : Exec σ (List Json)} {vs : Option (List Json)} (ha : Computes args vs) :
    Computes (do
      let (name, called) ← receiver services env r
      call name called method (← args))
    (do
      let name ← env.scope.receiver r
      (answers name method (← vs)).toOption) := by
  have answered : ∀ name s, services name = some s →
      Computes (do call name s method (← args))
        (do (answers name method (← vs)).toOption) := by
    intro name s h
    obtain ⟨t, ht, answers⟩ := hs name
    obtain rfl : s = t := Option.some.inj (h.symm.trans ht)
    exact Computes.bind ha fun vs => call_computes answers method vs
  cases r with
  | service name =>
    obtain ⟨s, h, -⟩ := hs name
    simp only [receiver, Services.get, h, Scope.receiver]
    exact answered name s h
  | param p =>
    simp only [receiver, Scope.receiver, Env.scope, Env.slot_eq]
    cases hf : env.find? fun e => e.1 == p.id with
    | none => exact Computes.throw _
    | some e =>
      have found := he e (List.mem_of_find?_eq_some hf)
      rcases e with ⟨i, _ | ⟨name, s⟩⟩
      · exact Computes.throw _
      · exact answered name s (found name s rfl)
  | _ => exact Computes.throw _

/-! ### Expressions -/

mutual

theorem Expr.evalUnder_computes (hs : services.AnswerBy answers) (e : Expr) {env : Env σ}
    (he : env.From services) {keys : List (SortKey σ)} {pureKeys : List ItemKey}
    (hk : KeysCompute keys pureKeys) :
    Computes (e.evalUnder services env keys) (e.valueUnder answers env.scope pureKeys) := by
  match e with
  | .param p => exact sorted_computes hk (Env.value_computes env p)
  | .constant _ _ | .null _ => exact sorted_computes hk (Computes.pure _)
  | .service _ | .lambda _ _ => exact sorted_computes hk (Computes.throw _)
  | .member target name _ =>
    refine sorted_computes hk (Computes.bind (target.evalUnder_computes hs he .nil) fun v => ?_)
    exact readMember_computes name v
  | .condition test a b =>
    refine sorted_computes hk (Computes.bind (test.evalUnder_computes hs he .nil) fun v => ?_)
    rcases v with _ | (_ | _) | _ | _ | _ | _ | _
    case bool.true => exact a.evalUnder_computes hs he .nil
    case bool.false => exact b.evalUnder_computes hs he .nil
    all_goals exact Computes.throw _
  | .equal a b =>
    refine sorted_computes hk (Computes.bind (a.evalUnder_computes hs he .nil) fun v => ?_)
    exact Computes.bind (b.evalUnder_computes hs he .nil) fun w => Computes.pure _
  | .builtin f args => exact Expr.evalBuiltin_computes hs f args he hk
  | .invoke r method args _ =>
    exact sorted_computes hk (invoke_computes hs he r method (Expr.evalList_computes hs args he))
  | .record _ fields =>
    exact sorted_computes hk (Computes.bind (Expr.evalFields_computes hs fields he) fun _ =>
      Computes.pure _)
  | .select source p body =>
    refine sorted_computes hk (Computes.bind (source.evalUnder_computes hs he .nil) fun v => ?_)
    cases v with
    | null => exact Computes.pure _
    | arr items =>
      refine Computes.bind (Computes.mapM (fun item => ?_) items) fun _ => Computes.pure _
      rw [← env.scope_bind]
      exact body.evalUnder_computes hs (he.bind p item) .nil
    | _ => exact Computes.throw _
  | .letIn p value body =>
    refine sorted_computes hk (Computes.bind (value.evalUnder_computes hs he .nil) fun v => ?_)
    rw [← env.scope_bind]
    exact body.evalUnder_computes hs (he.bind p v) .nil

theorem Expr.evalBuiltin_computes (hs : services.AnswerBy answers) (f : Builtin) (args : List Expr)
    {env : Env σ} (he : env.From services) {keys : List (SortKey σ)} {pureKeys : List ItemKey}
    (hk : KeysCompute keys pureKeys) :
    Computes ((Expr.builtin f args).evalUnder services env keys)
      ((Expr.builtin f args).valueUnder answers env.scope pureKeys) := by
  match f, args with
  | .thenBy d, list :: key :: _ =>
    exact list.evalUnder_computes hs he (.cons ⟨rfl, key.evalKey_computes hs he⟩ hk)
  | .orderBy d, list :: key :: _ =>
    refine Computes.bind (list.evalUnder_computes hs he .nil) fun v => ?_
    exact sortBy_computes (.cons ⟨rfl, key.evalKey_computes hs he⟩ hk) v
  | .thenBy _, [] | .thenBy _, [_] | .orderBy _, [] | .orderBy _, [_] => exact Computes.throw _
  | .count, [] | .skip, [] | .take, [] => exact Computes.throw _
  | .count, list :: _ =>
    refine sorted_computes hk (Computes.bind (list.evalUnder_computes hs he .nil) fun v => ?_)
    cases v with
    | null | arr _ => exact Computes.pure _
    | _ => exact Computes.throw _
  | .skip, list :: rest | .take, list :: rest =>
    refine sorted_computes hk (Computes.bind (list.evalUnder_computes hs he .nil) fun v => ?_)
    cases v with
    | null => exact Computes.pure _
    | arr items =>
      exact Computes.bind (Expr.evalHead_computes hs rest he) fun n => slice_computes _ items n
    | _ => exact Computes.throw _

theorem Expr.evalKey_computes (hs : services.AnswerBy answers) (key : Expr) {env : Env σ}
    (he : env.From services) (item : Json) :
    Computes (key.evalKey services env item) (key.keyValue answers env.scope item) := by
  match key with
  | .lambda p body =>
    show Computes (body.evalUnder services (env.bind p item) [])
      (body.valueUnder answers (env.scope.bind p item) [])
    rw [← env.scope_bind]
    exact body.evalUnder_computes hs (he.bind p item) .nil
  | .param _ | .constant _ _ | .null _ | .service _ | .member _ _ _ | .condition _ _ _
  | .equal _ _ | .builtin _ _ | .invoke _ _ _ _ | .record _ _ | .select _ _ _ | .letIn _ _ _ =>
    exact Computes.throw _

theorem Expr.evalHead_computes (hs : services.AnswerBy answers) (es : List Expr) {env : Env σ}
    (he : env.From services) :
    Computes (Expr.evalHead services es env) (Expr.valueHead answers es env.scope) := by
  match es with
  | [] => exact Computes.pure _
  | e :: _ => exact e.evalUnder_computes hs he .nil

theorem Expr.evalList_computes (hs : services.AnswerBy answers) (es : List Expr) {env : Env σ}
    (he : env.From services) :
    Computes (Expr.evalList services es env) (Expr.valueList answers es env.scope) := by
  match es with
  | [] => exact Computes.pure _
  | e :: es =>
    refine Computes.bind (e.evalUnder_computes hs he .nil) fun v => ?_
    exact Computes.bind (Expr.evalList_computes hs es he) fun vs => Computes.pure _

theorem Expr.evalFields_computes (hs : services.AnswerBy answers) (fields : List (String × Expr))
    {env : Env σ} (he : env.From services) :
    Computes (Expr.evalFields services fields env)
      (Expr.valueFields answers fields env.scope) := by
  match fields with
  | [] => exact Computes.pure _
  | (_, e) :: fields =>
    refine Computes.bind (e.evalUnder_computes hs he .nil) fun v => ?_
    exact Computes.bind (Expr.evalFields_computes hs fields he) fun vs => Computes.pure _

end

/-- Evaluation gives the value of an expression, or fails where there is none. -/
theorem Expr.eval_computes (hs : services.AnswerBy answers) (e : Expr) (he : env.From services) :
    Computes (e.eval services env) (e.value answers env.scope) :=
  e.evalUnder_computes hs he .nil

end Evaluation

end FieldPlan
