import FieldPlan.Extension.Sort
import FieldPlan.Proofs.Expr.Typed
import FieldPlan.Proofs.Json.Order
import FieldPlan.Proofs.StableSort
import FieldPlan.Proofs.Success

/-!
# Sort chains are stable sorts by several keys

* `Expr.sortChain`, `Expr.sortAlone` : a list sorted by a chain of keys, and by each of the keys
  alone, the last one first;
* `keyRows` : the values of the keys on the items; `keyOrders` : the orders of keyed items, key by key;
* `Expr.sortChain_eval` : a chain sorts the value of its source, whatever that is;
* `Extension.Sort.preSelection_sortChain` : the sort extension builds chains;
* `Expr.sortChain_sorts` : the result is the stable sort of the items by the keys in turn;
* `Expr.orderBy_integers` : the order of items by integers.
-/

namespace FieldPlan

variable {σ : Type}

/-! ## Chains -/

namespace Expr

/-- A list sorted by a first key and, where items are equal, by further ones. -/
def sortChain (source : Expr) (first : Direction × Expr) (rest : List (Direction × Expr)) : Expr :=
  rest.foldl (fun list key => .builtin (.thenBy key.1) [list, key.2])
    (.builtin (.orderBy first.1) [source, first.2])

/-- A list sorted by each of the keys alone, the last one first. -/
def sortAlone (source : Expr) (keys : List (Direction × Expr)) : Expr :=
  keys.foldr (fun key list => .builtin (.orderBy key.1) [list, key.2]) source

end Expr

def sortKeys (services : Services σ) (env : Env σ) (keys : List (Direction × Expr)) :
    List (SortKey σ) :=
  keys.map fun key => ⟨key.1, key.2.evalKey services env⟩

/-- The values of the keys on the items: one row for each item, in which every key has its place. -/
def keyRows (services : Services σ) (env : Env σ) (keys : List (Direction × Expr))
    (items : List Json) : Exec σ (List (List Json)) :=
  items.mapM (keyValues (sortKeys services env keys))

section Chains

variable {services : Services σ} {env : Env σ}

theorem Expr.evalUnder_thenBys (rest : List (Direction × Expr)) (list : Expr)
    (keys : List (SortKey σ)) :
    (rest.foldl (fun list key => Expr.builtin (.thenBy key.1) [list, key.2]) list).evalUnder
        services env keys =
      list.evalUnder services env (sortKeys services env rest ++ keys) := by
  induction rest generalizing list with
  | nil => rfl
  | cons key rest ih =>
    rw [List.foldl_cons, ih]
    rfl

/-- A chain ends where it is ordered first: it sorts the value that its source has by itself. -/
theorem Expr.sortChain_eval (services : Services σ) (env : Env σ) (source : Expr)
    (first : Direction × Expr) (rest : List (Direction × Expr)) :
    (source.sortChain first rest).eval services env =
      source.eval services env >>= sortBy (sortKeys services env (first :: rest)) := by
  refine (Expr.evalUnder_thenBys rest _ []).trans ?_
  rw [List.append_nil]
  rfl

theorem sortBy_sortKeys (keys : List (Direction × Expr)) (items : List Json) :
    sortBy (sortKeys services env keys) (.arr items) = (do
      let rows ← keyRows services env keys items
      pure (.arr (sortKeyed (keys.map (·.1)) (rows.zip items)))) := by
  have directions : (sortKeys services env keys).map (·.direction) = keys.map (·.1) := by
    simp [sortKeys]
  show (items.mapM fun item => do
    let values ← keyValues (sortKeys services env keys) item
    pure (values, item)) >>= _ = _
  rw [mapM_paired, directions]
  simp [keyRows]

/-- Every row has a value of every key, and there is a row for every item. -/
theorem keyRows_yields (keys : List (Direction × Expr)) (items : List Json) :
    Yields (fun rows => rows.length = items.length ∧ ∀ row ∈ rows, row.length = keys.length)
      (keyRows services env keys items) := by
  intro state rows next h
  refine ⟨Yields.mapM_length _ items state rows next h,
    Yields.mapM (fun item _ => ?_) state rows next h⟩
  have := Yields.mapM_length (fun key => key.value item) (sortKeys services env keys)
  rwa [sortKeys, List.length_map] at this

end Chains

/-! ## Chains that the extension builds -/

namespace Extension.Sort

variable {site : Site} {element : Ty} {entity : String} {list e : Expr} {n n' : Nat}

theorem addKey_builtin {first : Bool} {k : Key}
    (h : addKey site element entity list first k n = .ok (e, n')) :
    ∃ key, e = .builtin (if first then .orderBy k.2 else .thenBy k.2) [list, key] := by
  unfold addKey at h
  obtain ⟨f, n₁, -, h⟩ := run_bind_ok.mp h
  obtain ⟨x, n₂, -, h⟩ := run_bind_ok.mp h
  obtain ⟨value, n₃, -, h⟩ := run_bind_ok.mp h
  cases h
  exact ⟨.lambda x value, rfl⟩

theorem addKeys_thenBys {ks : List Key}
    (h : addKeys site element entity list false ks n = .ok (e, n')) :
    ∃ rest : List (Direction × Expr), rest.map (·.1) = ks.map (·.2) ∧
      e = rest.foldl (fun list key => .builtin (.thenBy key.1) [list, key.2]) list := by
  induction ks generalizing list n with
  | nil =>
    cases h
    exact ⟨[], rfl, rfl⟩
  | cons k ks ih =>
    obtain ⟨refined, n₁, hk, h⟩ := run_bind_ok.mp h
    obtain ⟨key, rfl⟩ := addKey_builtin hk
    obtain ⟨rest, directions, rfl⟩ := ih h
    exact ⟨(k.2, key) :: rest, congrArg (k.2 :: ·) directions, rfl⟩

/-- The extension leaves a base expression as it is, or sorts it by a chain of keys in the directions
and the order of the request. -/
theorem preSelection_sortChain {default : List Key} {base : Expr} {item item' : Option Param}
    (h : preSelection default site base item n = .ok ((e, item'), n')) :
    e = base ∨ ∃ k ks first rest, keys default (site.arguments.find? "sort") = .ok (k :: ks) ∧
      (first :: rest).map (·.1) = (k :: ks).map (·.2) ∧ e = base.sortChain first rest := by
  unfold preSelection at h
  split at h
  · cases h
    exact .inl rfl
  obtain ⟨ks, n₁, hkeys, h⟩ := run_bind_ok.mp h
  cases ks with
  | nil =>
    cases h
    exact .inl rfl
  | cons k ks =>
    obtain ⟨found, -⟩ := run_lift_ok.mp hkeys
    cases hel : base.ty.element? with
    | none =>
      rw [hel] at h
      cases h
    | some element =>
      rw [hel] at h
      dsimp only at h
      cases hen : element.entityName with
      | none =>
        rw [hen] at h
        cases h
      | some entity =>
        rw [hen] at h
        obtain ⟨list, n₂, hadd, h⟩ := run_bind_ok.mp h
        cases h
        obtain ⟨ordered, n₃, hfirst, hrest⟩ := run_bind_ok.mp hadd
        obtain ⟨key, rfl⟩ := addKey_builtin hfirst
        obtain ⟨rest, directions, rfl⟩ := addKeys_thenBys hrest
        exact .inr ⟨k, ks, (k.2, key), rest, found, congrArg (k.2 :: ·) directions, rfl⟩

end Extension.Sort

/-! ## The order of keyed items -/

/-- The order of keyed items by the key at a position. -/
def orderAt (d : Direction) (m : Nat) (a b : List Json × Json) : Ordering :=
  d.order (a.1[m]?.getD .null) (b.1[m]?.getD .null)

/-- The orders of keyed items by each of the keys. -/
def keyOrders (directions : List Direction) :
    List (List Json × Json → List Json × Json → Ordering) :=
  directions.zipIdx.map fun entry => orderAt entry.1 entry.2

instance transCmp_orderAt (d : Direction) (m : Nat) : Std.TransCmp (orderAt d m) :=
  transCmp_comap d.order fun a : List Json × Json => a.1[m]?.getD .null

theorem transCmp_of_mem_keyOrders (directions : List Direction) :
    ∀ order ∈ keyOrders directions, Std.TransCmp order := by
  intro order h
  obtain ⟨entry, -, rfl⟩ := List.mem_map.mp h
  infer_instance

theorem keyOrder_drop (directions : List Direction) {a b : List Json × Json}
    (h : a.1.length = b.1.length) (n : Nat) :
    keyOrder directions (a.1.drop n) (b.1.drop n) =
      lexOrder ((directions.zipIdx n).map fun entry => orderAt entry.1 entry.2) a b := by
  induction directions generalizing n with
  | nil => simp [keyOrder, lexOrder]
  | cons d directions ih =>
    rw [List.zipIdx_cons, List.map_cons]
    show _ = (orderAt d n a b).then (lexOrder _ a b)
    rw [← ih (n + 1)]
    by_cases hn : n < a.1.length
    · have hb : n < b.1.length := h ▸ hn
      rw [List.drop_eq_getElem_cons hn, List.drop_eq_getElem_cons hb]
      simp [keyOrder, orderAt, hn, hb]
    · have ha : a.1.length ≤ n := Nat.le_of_not_lt hn
      have hb : b.1.length ≤ n := h ▸ ha
      have tie : orderAt d n a b = .eq := by
        simp [orderAt, ha, hb, Std.ReflCmp.compare_self]
      rw [tie, Ordering.eq_then, List.drop_eq_nil_of_le ha, List.drop_eq_nil_of_le hb,
        List.drop_eq_nil_of_le (Nat.le_succ_of_le ha), List.drop_eq_nil_of_le (Nat.le_succ_of_le hb)]
      cases directions <;> rfl

/-- Keyed items with rows of one length are sorted stably by the orders of the keys. -/
theorem sortKeyed_eq {directions : List Direction} {keyed : List (List Json × Json)} {n : Nat}
    (h : ∀ a ∈ keyed, a.1.length = n) :
    sortKeyed directions keyed = (stableSort (lexOrder (keyOrders directions)) keyed).map (·.2) := by
  refine congrArg _ (stableSort_congr fun a ha b hb => ?_)
  exact keyOrder_drop directions ((h a ha).trans (h b hb).symm) 0

/-! ## Keys that are functions of the item -/

def itemOrder (value : Expr → Json → Json) (key : Direction × Expr) (a b : Json) : Ordering :=
  key.1.order (value key.2 a) (value key.2 b)

section Values

variable {services : Services σ} {env : Env σ} {value : Expr → Json → Json}
  {keys : List (Direction × Expr)} {items : List Json}

instance transCmp_itemOrder (key : Direction × Expr) : Std.TransCmp (itemOrder value key) :=
  transCmp_comap key.1.order (value key.2)

/-- The keys have these values on the items, whatever the services did before. -/
def ValuedBy (services : Services σ) (env : Env σ) (value : Expr → Json → Json)
    (keys : List (Direction × Expr)) (items : List Json) : Prop :=
  ∀ key ∈ keys, ∀ item ∈ items, Computes (key.2.evalKey services env item) (some (value key.2 item))

theorem keyRows_eq (h : ValuedBy services env value keys items) :
    keyRows services env keys items =
      pure (items.map fun item => keys.map fun key => value key.2 item) := by
  refine mapM_eq_pure items fun item hitem => ?_
  unfold keyValues sortKeys
  rw [List.mapM_map]
  exact mapM_eq_pure keys fun key hkey => (h key hkey item hitem).eq_pure

theorem keyOrder_map (keys : List (Direction × Expr)) (a b : Json) :
    keyOrder (keys.map (·.1)) (keys.map fun key => value key.2 a) (keys.map fun key => value key.2 b) =
      lexOrder (keys.map (itemOrder value)) a b := by
  induction keys with
  | nil => rfl
  | cons key keys ih =>
    simp only [List.map_cons, keyOrder, ih]
    rfl

/-- Items with rows of such values are sorted by each of the keys, the last one first. -/
theorem sortKeyed_map (keys : List (Direction × Expr)) (items : List Json) :
    sortKeyed (keys.map (·.1))
        ((items.map fun item => keys.map fun key => value key.2 item).zip items) =
      (keys.map (itemOrder value)).foldr stableSort items := by
  have keyed := map_stableSort (fun a b : List Json × Json => keyOrder (keys.map (·.1)) a.1 b.1)
    (fun item => (keys.map fun key => value key.2 item, item)) items
  have orders : ∀ order ∈ keys.map (itemOrder value), Std.TransCmp order := by
    intro order h
    obtain ⟨key, -, rfl⟩ := List.mem_map.mp h
    infer_instance
  rw [← List.map_prod_right_eq_zip]
  calc
    _ = (stableSort (fun a b : List Json × Json => keyOrder (keys.map (·.1)) a.1 b.1) _).map (·.2) := rfl
    _ = stableSort (lexOrder (keys.map (itemOrder value))) items := by
      rw [← keyed, List.map_map]
      simp only [keyOrder_map, Function.comp_def, List.map_id']
    _ = (keys.map (itemOrder value)).foldr stableSort items := stableSort_lexOrder orders items

/-- Sorting by each key alone gives the items sorted by the orders of the keys in turn. -/
theorem Expr.sortAlone_eval {source : Expr} {state next : σ}
    (hsource : source.eval services env state = (.ok (.arr items), next))
    (h : ValuedBy services env value keys items) :
    (source.sortAlone keys).eval services env state =
      (.ok (.arr ((keys.map (itemOrder value)).foldr stableSort items)), next) := by
  induction keys with
  | nil => exact hsource
  | cons key keys ih =>
    obtain ⟨hkey, hrest⟩ := List.forall_mem_cons.mp h
    have sorted := perm_foldr_stableSort (keys.map (itemOrder value)) items
    have valued : ValuedBy services env value [key]
        ((keys.map (itemOrder value)).foldr stableSort items) :=
      List.forall_mem_singleton.mpr fun item hitem => hkey item (sorted.mem_iff.mp hitem)
    have chain := Expr.sortChain_eval services env (source.sortAlone keys) key []
    calc
      _ = ((source.sortAlone keys).eval services env >>=
            sortBy (sortKeys services env [key])) state := congrFun chain state
      _ = _ := exec_bind_ok (ih hrest)
      _ = (.ok (.arr (sortKeyed ([key].map (·.1)) _)), next) := by
        rw [sortBy_sortKeys]
        exact exec_bind_ok (congrFun (keyRows_eq valued) next)
      _ = _ := by
        rw [sortKeyed_map]
        rfl

end Values

/-! ## The result of a chain -/

/-- A sort chain gives the stable sort of the items of its source by the keys in turn, under an order
that is a total preorder: the rows of key values are in lexicographic order, each key in its
direction, and items with equal rows stay as they were. Stable sorts by each of the keys, the last
one first, give the same, and so do sorts by each of them alone where their values depend on the item
only. The source is any expression with a list as its value, another chain included. -/
theorem Expr.sortChain_sorts (services : Services σ) (env : Env σ) (source : Expr)
    (first : Direction × Expr) (rest : List (Direction × Expr)) {state atKeys atEnd : σ}
    {items : List Json} {rows : List (List Json)}
    (hsource : source.eval services env state = (.ok (.arr items), atKeys))
    (hrows : keyRows services env (first :: rest) items atKeys = (.ok rows, atEnd)) :
    Std.TransCmp Json.sortOrder ∧
      ∃ sorted : List (List Json × Json),
        (source.sortChain first rest).eval services env state =
          (.ok (.arr (sorted.map (·.2))), atEnd) ∧
        (sorted.map (·.2)).Perm items ∧
        StablySorts (lexOrder (keyOrders ((first :: rest).map (·.1)))) (rows.zip items) sorted ∧
        sorted = (keyOrders ((first :: rest).map (·.1))).foldr stableSort (rows.zip items) ∧
        ∀ value, ValuedBy services env value (first :: rest) items →
          (source.sortAlone (first :: rest)).eval services env state =
            (.ok (.arr (sorted.map (·.2))), atEnd) := by
  obtain ⟨length_rows, length_row⟩ := keyRows_yields _ _ atKeys rows atEnd hrows
  have orders := transCmp_of_mem_keyOrders ((first :: rest).map (·.1))
  have lex := transCmp_lexOrder orders
  have keyed : sortKeyed ((first :: rest).map (·.1)) (rows.zip items) =
      (stableSort (lexOrder (keyOrders ((first :: rest).map (·.1)))) (rows.zip items)).map (·.2) :=
    sortKeyed_eq fun a ha => length_row a.1 (List.of_mem_zip ha).1
  have spec := stableSort_spec (lexOrder (keyOrders ((first :: rest).map (·.1)))) (rows.zip items)
  refine ⟨inferInstance, _, ?_, ?_, spec, stableSort_lexOrder orders _, fun value valued => ?_⟩
  · rw [Expr.sortChain_eval, exec_bind_ok hsource, sortBy_sortKeys, exec_bind_ok hrows, keyed]
    rfl
  · have := spec.perm.map (·.2)
    rwa [List.map_snd_zip (Nat.le_of_eq length_rows.symm)] at this
  · have here := (congrFun (keyRows_eq valued) atKeys).symm.trans hrows
    cases here
    rw [Expr.sortAlone_eval hsource valued, ← sortKeyed_map, keyed]

namespace Standings

def services : Services Unit := fun _ => none

def player (name team : String) (score : Int) : Json :=
  .obj [("name", .str name), ("team", .str team), ("score", .int score)]

def key (d : Direction) (name : String) : Direction × Expr :=
  (d, .lambda ⟨0, "player", .json⟩ (.member (.param ⟨0, "player", .json⟩) name .json))

def reading : Expr → Json → Json
  | .lambda _ (.member _ name _), item => (item.find? name).getD .null
  | _, _ => .null

/-- The players by name, the last one first. -/
def byName : Expr :=
  (Expr.constant (.arr [player "amy" "a" 1, player "bob" "a" 1, player "dan" "a" 3,
    player "eve" "b" 1]) .json).sortChain (key .descending "name") []

/-- The value of this. -/
def named : List Json :=
  [player "eve" "b" 1, player "dan" "a" 3, player "bob" "a" 1, player "amy" "a" 1]

/-- The teams and scores of these players. -/
def rows : List (List Json) :=
  [[.str "b", .int 1], [.str "a", .int 3], [.str "a", .int 1], [.str "a", .int 1]]

end Standings

open Standings in
theorem sortChain_sorts_standings :
    ∃ sorted : List (List Json × Json),
      (byName.sortChain (key .ascending "team") [key .descending "score"]).eval services [] () =
        (.ok (.arr (sorted.map (·.2))), ()) ∧
      StablySorts (lexOrder (keyOrders [.ascending, .descending])) (rows.zip named) sorted ∧
      (byName.sortAlone [key .ascending "team", key .descending "score"]).eval services [] () =
        (.ok (.arr (sorted.map (·.2))), ()) := by
  have bob_amy : keyOrder [.descending] [.str "amy"] [.str "bob"] = .gt := by rfl
  have eve_dan : keyOrder [.descending] [.str "dan"] [.str "eve"] = .gt := by rfl
  have eve_bob : keyOrder [.descending] [.str "bob"] [.str "eve"] = .gt := by rfl
  have dan_bob : keyOrder [.descending] [.str "bob"] [.str "dan"] = .gt := by rfl
  have ordered : sortKeyed [.descending] [([.str "amy"], player "amy" "a" 1),
      ([.str "bob"], player "bob" "a" 1), ([.str "dan"], player "dan" "a" 3),
      ([.str "eve"], player "eve" "b" 1)] = named := by
    simp [sortKeyed, List.mergeSort, bob_amy, eve_dan, eve_bob, dan_bob, named]
  have hsource : byName.eval services [] () = (.ok (.arr named), ()) :=
    congrArg (fun items => (Except.ok (Json.arr items), ())) ordered
  have hrows : keyRows services [] [key .ascending "team", key .descending "score"] named () =
      (.ok rows, ()) := by rfl
  have valued : ValuedBy services [] reading [key .ascending "team", key .descending "score"]
      named := by
    simp only [ValuedBy, named, List.forall_mem_cons]
    exact ⟨⟨fun _ => rfl, fun _ => rfl, fun _ => rfl, fun _ => rfl, List.forall_mem_nil _⟩,
      ⟨fun _ => rfl, fun _ => rfl, fun _ => rfl, fun _ => rfl, List.forall_mem_nil _⟩,
      List.forall_mem_nil _⟩
  obtain ⟨-, sorted, chain, -, spec, -, alone⟩ :=
    Expr.sortChain_sorts services [] byName (key .ascending "team") [key .descending "score"]
      hsource hrows
  exact ⟨sorted, chain, spec, alone reading valued⟩

/-! ## Integer keys -/

/-- Items with an integer as their only key are sorted by its double. -/
theorem sortKeyed_integers (d : Direction) (keyed : List (Int × Json)) :
    sortKeyed [d] (keyed.map fun a => ([.int a.1], a.2)) =
      (stableSort (fun a b => d.order (.int a.1) (.int b.1)) keyed).map (·.2) := by
  have sorted := map_stableSort (fun a b : List Json × Json => keyOrder [d] a.1 b.1)
    (fun a : Int × Json => ([Json.int a.1], a.2)) keyed
  calc
    _ = (stableSort (fun a b : List Json × Json => keyOrder [d] a.1 b.1) _).map (·.2) := rfl
    _ = (stableSort (fun a b => keyOrder [d] [.int a.1] [.int b.1]) keyed).map (·.2) := by
      rw [← sorted, List.map_map]
      rfl
    _ = _ := by simp only [keyOrder, Ordering.then_eq]

/-- Sorting by an integer puts no item after one that it should stand before, unless their keys round
to one double; so it is exact for keys up to `2 ^ 53`. -/
theorem Expr.orderBy_integers (services : Services σ) (env : Env σ) (source : Expr) (d : Direction)
    (key : Expr) {state atKeys atEnd : σ} {items : List Json} {ints : List Int}
    (hsource : source.eval services env state = (.ok (.arr items), atKeys))
    (hrows : keyRows services env [(d, key)] items atKeys =
      (.ok (ints.map fun n => [.int n]), atEnd)) :
    ∃ sorted : List (Int × Json),
      (Expr.builtin (.orderBy d) [source, key]).eval services env state =
        (.ok (.arr (sorted.map (·.2))), atEnd) ∧
      sorted.Perm (ints.zip items) ∧
      sorted.Pairwise (fun a b => d.Le a.1 b.1 ∨
        (Binary64.ofInt a.1).scaled = (Binary64.ofInt b.1).scaled) ∧
      ((∀ n ∈ ints, n.natAbs ≤ 2 ^ 53) → sorted.Pairwise fun a b => d.Le a.1 b.1) := by
  have total : Std.TransCmp fun a b : Int × Json => d.order (.int a.1) (.int b.1) :=
    transCmp_comap d.order fun a : Int × Json => .int a.1
  have spec := stableSort_spec (fun a b : Int × Json => d.order (.int a.1) (.int b.1)) (ints.zip items)
  have ordered := spec.ordered.imp fun h => Direction.le_of_order_int h
  have rows : (ints.map fun n => [Json.int n]).zip items =
      (ints.zip items).map fun a => ([.int a.1], a.2) := List.zip_map_left
  refine ⟨_, ?_, spec.perm, ordered, fun small => ordered.imp_of_mem fun ha hb h => ?_⟩
  · calc
      _ = (source.eval services env >>= sortBy (sortKeys services env [(d, key)])) state :=
        congrFun (Expr.sortChain_eval services env source (d, key) []) state
      _ = (.ok (.arr (sortKeyed [d] ((ints.map fun n => [.int n]).zip items))), atEnd) := by
        rw [exec_bind_ok hsource, sortBy_sortKeys, exec_bind_ok hrows]
        rfl
      _ = _ := by rw [rows, sortKeyed_integers]
  · refine h.elim id fun same => ?_
    have bound : ∀ {a}, a ∈ stableSort _ (ints.zip items) → a.1.natAbs ≤ 2 ^ 53 := fun ha =>
      small _ (List.of_mem_zip (spec.perm.mem_iff.mp ha)).1
    rw [Binary64.ofInt_inj (bound ha) (bound hb) same]
    exact d.le_refl _

end FieldPlan
