/-!
# Tables in insertion order

* `Dict α` : a table from names to values whose entries keep the order of their first insertion;
* `Dict.find?`, `Dict.contains`, `Dict.keys` : look-up, the first entry of a name counting;
* `Dict.insert` : a known name keeps its place and takes the new value, a new one goes last;
* `Dict.insertNew` : a known name keeps its place and its value;
* `Dict.modify` : a known name keeps its place and its value is changed;
* `Dict.ofList` : the table that a list of entries leaves behind, inserted one after the other.
-/

namespace FieldPlan

/-- A table from names to values in insertion order. -/
abbrev Dict (α : Type) := List (String × α)

namespace Dict

variable {α : Type}

def find? (d : Dict α) (name : String) : Option α :=
  match d with
  | [] => none
  | (k, v) :: rest => if k = name then some v else find? rest name

def contains (d : Dict α) (name : String) : Bool := d.any fun e => e.1 == name

def keys (d : Dict α) : List String := d.map (·.1)

def values (d : Dict α) : List α := d.map (·.2)

/-- Sets the value under `name`, in its place when it has one and else at the end. -/
def insert (d : Dict α) (name : String) (v : α) : Dict α :=
  match d with
  | [] => [(name, v)]
  | (k, w) :: rest => if k = name then (k, v) :: rest else (k, w) :: insert rest name v

/-- Adds an entry at the end unless `name` has one. -/
def insertNew (d : Dict α) (name : String) (v : α) : Dict α :=
  if d.contains name then d else d ++ [(name, v)]

def modify (d : Dict α) (name : String) (f : α → α) : Dict α :=
  match d.find? name with
  | none => d
  | some v => d.insert name (f v)

def erase (d : Dict α) (name : String) : Dict α := d.filter fun e => e.1 != name

def ofList (entries : List (String × α)) : Dict α :=
  entries.foldl (fun d e => d.insert e.1 e.2) []

@[simp] theorem find?_nil (name : String) : find? ([] : Dict α) name = none := rfl

theorem find?_cons (k name : String) (v : α) (d : Dict α) :
    find? ((k, v) :: d) name = if k = name then some v else find? d name := rfl

theorem find?_insert (d : Dict α) (k name : String) (v : α) :
    (d.insert k v).find? name = if k = name then some v else d.find? name := by
  induction d with
  | nil => rfl
  | cons e d ih =>
    obtain ⟨k', w⟩ := e
    by_cases h : k' = k
    · subst h; by_cases hn : k' = name <;> simp [insert, find?_cons, hn]
    · by_cases hn : k' = name
      · subst hn; simp [insert, find?_cons, h, Ne.symm h]
      · simp [insert, find?_cons, h, hn, ih]

theorem keys_append (d e : Dict α) : keys (d ++ e) = keys d ++ keys e := List.map_append

theorem keys_insert (d : Dict α) (k : String) (v : α) :
    (d.insert k v).keys = if k ∈ d.keys then d.keys else d.keys ++ [k] := by
  induction d with
  | nil => rfl
  | cons e d ih =>
    obtain ⟨k', w⟩ := e
    by_cases h : k' = k
    · subst h; simp [insert, keys]
    · have h' : ¬k = k' := fun e => h e.symm
      simp only [keys] at ih
      simp only [insert, h, if_false, keys, List.map_cons, ih, List.mem_cons, h', false_or]
      split <;> simp_all

theorem mem_keys_insert (d : Dict α) (k name : String) (v : α) :
    name ∈ (d.insert k v).keys ↔ name ∈ d.keys ∨ name = k := by
  rw [keys_insert]
  split
  case isTrue h => exact ⟨Or.inl, fun hn => hn.elim id fun he => he ▸ h⟩
  case isFalse => simp

theorem contains_iff (d : Dict α) (name : String) : d.contains name = true ↔ name ∈ d.keys := by
  simp [contains, keys, List.any_eq_true]

theorem find?_eq_none (d : Dict α) (name : String) : d.find? name = none ↔ name ∉ d.keys := by
  induction d with
  | nil => simp [keys]
  | cons e d ih =>
    obtain ⟨k, v⟩ := e
    by_cases h : k = name
    · simp [find?_cons, h, keys]
    · have h' : ¬name = k := fun e => h e.symm
      simp only [keys] at ih
      simp [find?_cons, h, h', keys, ih]

theorem find?_append (d e : Dict α) (name : String) :
    find? (d ++ e) name = (d.find? name).or (e.find? name) := by
  induction d with
  | nil => rfl
  | cons x d ih =>
    obtain ⟨k, v⟩ := x
    rw [List.cons_append, find?_cons, find?_cons, ih]
    split <;> rfl

theorem find?_append_cons {d : Dict α} {name : String} (h : name ∉ d.keys) (v : α)
    (rest : Dict α) : find? (d ++ (name, v) :: rest) name = some v := by
  rw [find?_append, (find?_eq_none d name).mpr h, find?_cons, if_pos rfl]
  rfl

theorem mem_of_find? {d : Dict α} {name : String} {v : α} (h : d.find? name = some v) :
    (name, v) ∈ d := by
  induction d with
  | nil => simp at h
  | cons e d ih =>
    obtain ⟨k, w⟩ := e
    rw [find?_cons] at h
    split at h
    · next hk => cases h; subst hk; exact List.mem_cons_self
    · exact List.mem_cons_of_mem _ (ih h)

/-- Where no name stands twice, each entry is found under its name. -/
theorem find?_of_mem {d : Dict α} {name : String} {v : α} (hd : d.keys.Nodup) (h : (name, v) ∈ d) :
    d.find? name = some v := by
  induction d with
  | nil => simp at h
  | cons e d ih =>
    obtain ⟨k, w⟩ := e
    simp only [keys, List.map_cons, List.nodup_cons] at hd
    rcases List.mem_cons.1 h with h | h
    · cases h; simp [find?_cons]
    · have hne : k ≠ name := fun he => hd.1 (he ▸ List.mem_map.2 ⟨_, h, rfl⟩)
      rw [find?_cons, if_neg hne, ih hd.2 h]

theorem insert_of_not_mem {d : Dict α} {name : String} (h : name ∉ d.keys) (v : α) :
    d.insert name v = d ++ [(name, v)] := by
  induction d with
  | nil => rfl
  | cons e d ih =>
    obtain ⟨k, w⟩ := e
    simp only [keys, List.map_cons, List.mem_cons, not_or] at h
    rw [insert, if_neg (fun he => h.1 he.symm), ih h.2, List.cons_append]

theorem insertNew_of_mem {d : Dict α} {name : String} (h : name ∈ d.keys) (v : α) :
    d.insertNew name v = d :=
  if_pos ((contains_iff d name).mpr h)

theorem insertNew_of_not_mem {d : Dict α} {name : String} (h : name ∉ d.keys) (v : α) :
    d.insertNew name v = d ++ [(name, v)] :=
  if_neg fun hc => h ((contains_iff d name).mp hc)

theorem nodup_insert {d : Dict α} (h : d.keys.Nodup) (name : String) (v : α) :
    (d.insert name v).keys.Nodup := by
  rw [keys_insert]
  split
  · exact h
  · rename_i hn
    exact List.nodup_append.mpr ⟨h, by simp, fun a ha b hb => by
      obtain rfl := List.mem_singleton.mp hb
      exact fun he => hn (he ▸ ha)⟩

theorem nodup_insertNew {d : Dict α} (h : d.keys.Nodup) (name : String) (v : α) :
    (d.insertNew name v).keys.Nodup := by
  by_cases hn : name ∈ d.keys
  · rwa [insertNew_of_mem hn]
  · rw [insertNew_of_not_mem hn, ← insert_of_not_mem hn]
    exact nodup_insert h name v

/-- Setting a name to the value that it has changes nothing. -/
theorem insert_of_find? {d : Dict α} {name : String} {v : α} (h : d.find? name = some v) :
    d.insert name v = d := by
  induction d with
  | nil => cases h
  | cons x d ih =>
    obtain ⟨k, w⟩ := x
    rw [find?_cons] at h
    rw [insert]
    split at h
    · cases h
      rw [if_pos ‹_›]
    · rw [if_neg ‹_›, ih h]

theorem foldl_insert_of_nodup (d e : Dict α) (h : (d ++ e).keys.Nodup) :
    e.foldl (fun d x => d.insert x.1 x.2) d = d ++ e := by
  induction e generalizing d with
  | nil => simp
  | cons x e ih =>
    have hx : x.1 ∉ d.keys := by
      simp only [keys, List.map_append, List.map_cons, List.nodup_append, List.mem_cons] at h
      exact fun hm => h.2.2 _ hm _ (Or.inl rfl) rfl
    rw [List.foldl_cons, insert_of_not_mem hx, ih _ (by simpa using h)]
    simp

/-- Entries under distinct names are a table as they stand. -/
theorem ofList_of_nodup {d : Dict α} (h : d.keys.Nodup) : ofList d = d := by
  simpa [ofList] using foldl_insert_of_nodup [] d (by simpa using h)

end Dict

end FieldPlan
