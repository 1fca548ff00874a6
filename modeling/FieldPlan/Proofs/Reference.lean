import FieldPlan.Proofs.Success
import FieldPlan.Ty.Reference
import Mathlib

/-!
# What references denote

References have the grammar `T ::= ws (name | '[' T ']') ws '!'? ws`, where `ws` is any run of blanks.

* `Text.trim_eq_iff` : what trimming leaves of a text;
* `Reference.Denotes` : the grammar, with what its derivations denote;
* `Reference.splitMark_eq` : how a reference that has been trimmed falls apart, from both of its ends;
* `Reference.read_iff` : reading accepts the grammar, and nothing else, for names without blanks,
  brackets and marks;
* `Ty.ofReference_exact` : so it is for types, and the notation of a type is a reference to it.
-/

namespace FieldPlan

/-! ## Trimming -/

namespace Text

variable {a b cs : List Char}

def Blanks (cs : List Char) : Prop := ∀ c ∈ cs, isBlank c = true

/-- A text with something in it and no blank at its ends. -/
structure Tight (cs : List Char) : Prop where
  head : ∃ c rest, cs = c :: rest ∧ isBlank c = false
  last : ∃ front c, cs = front ++ [c] ∧ isBlank c = false

theorem Blanks.nil : Blanks [] := nofun

theorem Blanks.append (ha : Blanks a) (hb : Blanks b) : Blanks (a ++ b) := fun c hc =>
  (List.mem_append.mp hc).elim (ha c) (hb c)

theorem trimStart_append (ha : Blanks a) (hs : ∃ c rest, cs = c :: rest ∧ isBlank c = false) :
    trimStart (a ++ cs) = cs := by
  obtain ⟨c, rest, rfl, hc⟩ := hs
  unfold trimStart
  rw [List.dropWhile_append_of_pos ha]
  exact List.dropWhile_cons_of_neg (by simp [hc])

theorem trimEnd_append (hb : Blanks b) (hs : ∃ front c, cs = front ++ [c] ∧ isBlank c = false) :
    trimEnd (cs ++ b) = cs := by
  obtain ⟨front, c, rfl, hc⟩ := hs
  have reversed : trimStart (b.reverse ++ (front ++ [c]).reverse) = (front ++ [c]).reverse :=
    trimStart_append (fun c hc => hb c (List.mem_reverse.mp hc)) ⟨c, front.reverse, by simp, hc⟩
  unfold trimStart at reversed
  rw [trimEnd, List.reverse_append, reversed, List.reverse_reverse]

/-- Trimming takes off the blanks around a text. -/
theorem trim_append (ha : Blanks a) (hs : Tight cs) (hb : Blanks b) : trim (a ++ cs ++ b) = cs := by
  obtain ⟨c, rest, hcs, hc⟩ := hs.head
  have start : trimStart (a ++ (cs ++ b)) = cs ++ b :=
    trimStart_append ha ⟨c, rest ++ b, by rw [hcs, List.cons_append], hc⟩
  rw [trim, List.append_assoc, start]
  exact trimEnd_append hb hs.last

theorem exists_trimStart (cs : List Char) : ∃ a, Blanks a ∧ cs = a ++ trimStart cs :=
  ⟨cs.takeWhile isBlank, List.all_eq_true.mp List.all_takeWhile,
    List.takeWhile_append_dropWhile.symm⟩

theorem exists_trimEnd (cs : List Char) : ∃ b, Blanks b ∧ cs = trimEnd cs ++ b := by
  obtain ⟨b, hb, reversed⟩ := exists_trimStart cs.reverse
  refine ⟨b.reverse, fun c hc => hb c (List.mem_reverse.mp hc), ?_⟩
  rw [trimEnd, ← List.reverse_append]
  exact List.reverse_eq_iff.mp reversed

/-- A text is what trimming leaves of it, with blanks around. -/
theorem exists_trim (cs : List Char) : ∃ a b, Blanks a ∧ Blanks b ∧ cs = a ++ trim cs ++ b := by
  obtain ⟨a, ha, start⟩ := exists_trimStart cs
  obtain ⟨b, hb, finish⟩ := exists_trimEnd (trimStart cs)
  refine ⟨a, b, ha, hb, ?_⟩
  rw [trim, List.append_assoc, ← finish]
  exact start

end Text

namespace Reference

open Text

/-! ## The grammar -/

section Grammar

variable {α : Type} {isNamed : String → Prop} {ofName : String → Bool → α} {list : α → Bool → α}

/-- The grammar of references, given which texts are names and what names and lists denote; the last
argument of both says whether null is admitted, that is, whether the mark is missing. -/
inductive Denotes (isNamed : String → Prop) (ofName : String → Bool → α) (list : α → Bool → α) :
    List Char → α → Prop
  | name {before after behind : List Char} {name : String} {nullable : Bool} : Blanks before →
    Blanks after → Blanks behind → isNamed name → Denotes isNamed ofName list
      (before ++ name.toList ++ after ++ (Ty.mark nullable).toList ++ behind) (ofName name nullable)
  | list {before inner after behind : List Char} {element : α} {nullable : Bool} : Blanks before →
    Blanks after → Blanks behind → Denotes isNamed ofName list inner element →
    Denotes isNamed ofName list
      (before ++ ('[' :: inner ++ [']']) ++ after ++ (Ty.mark nullable).toList ++ behind)
      (list element nullable)

/-- The names of a reader: it knows them, and they have neither blanks nor marks at their ends and no
bracket in front. -/
structure Names (named : String → Bool → Option α) (isNamed : String → Prop)
    (ofName : String → Bool → α) : Prop where
  known : ∀ name nullable a, named name nullable = some a ↔ isNamed name ∧ a = ofName name nullable
  tight : ∀ name, isNamed name → Tight name.toList
  unmarked : ∀ name, isNamed name → name.toList.getLast? ≠ some '!'
  bare : ∀ name, isNamed name → inBrackets? name.toList = none

end Grammar

/-! ## Taking apart -/

theorem stripLast?_iff {c : Char} {cs front : List Char} :
    stripLast? c cs = some front ↔ cs = front ++ [c] := by
  unfold stripLast?
  constructor
  · intro h
    split at h
    · rename_i last
      cases h
      exact (List.dropLast_append_getLast? c last).symm
    · cases h
  · rintro rfl
    simp

theorem inBrackets?_iff {cs inner : List Char} :
    inBrackets? cs = some inner ↔ cs = '[' :: inner ++ [']'] := by
  unfold inBrackets?
  split
  · rename_i rest
    rw [stripLast?_iff, List.cons_append, List.cons.injEq]
    simp
  · rename_i other
    exact ⟨nofun, fun h => absurd h (other _)⟩

theorem splitMark_marked {cs inner : List Char} (h : stripLast? '!' cs = some inner) :
    splitMark cs = (trim inner, false) := by
  unfold splitMark
  rw [h]

theorem splitMark_plain {cs : List Char} (h : stripLast? '!' cs = none) : splitMark cs = (cs, true) := by
  unfold splitMark
  rw [h]

/-- What is left of a text without its blanks and its mark stands in it. -/
theorem exists_splitMark (cs : List Char) : ∃ before after behind, Blanks before ∧ Blanks after ∧
    Blanks behind ∧ cs = before ++ (splitMark (trim cs)).1 ++ after ++
      (Ty.mark (splitMark (trim cs)).2).toList ++ behind := by
  obtain ⟨before, behind, hbefore, hbehind, whole⟩ := exists_trim cs
  cases marked : stripLast? '!' (trim cs) with
  | none =>
    rw [splitMark_plain marked]
    exact ⟨before, [], behind, hbefore, .nil, hbehind, by simpa [Ty.mark] using whole⟩
  | some front =>
    rw [splitMark_marked marked]
    obtain ⟨inside, after, hinside, hafter, part⟩ := exists_trim front
    refine ⟨before ++ inside, after, behind, hbefore.append hinside, hafter, hbehind, ?_⟩
    rw [stripLast?_iff.mp marked, part] at whole
    simpa [Ty.mark] using whole

/-- Blanks and the mark around a tight text that does not end in a mark are taken off. -/
theorem splitMark_eq {before core after behind : List Char} (nullable : Bool)
    (hbefore : Blanks before) (hafter : Blanks after) (hbehind : Blanks behind) (tight : Tight core)
    (unmarked : core.getLast? ≠ some '!') :
    splitMark (trim (before ++ core ++ after ++ (Ty.mark nullable).toList ++ behind)) =
      (core, nullable) := by
  cases nullable with
  | true =>
    have trimmed := trim_append hbefore tight (hafter.append hbehind)
    have plain : stripLast? '!' core = none := if_neg unmarked
    simp only [Ty.mark, if_true, String.toList_empty, List.append_nil, List.append_assoc] at trimmed ⊢
    rw [trimmed, splitMark_plain plain]
  | false =>
    obtain ⟨c, rest, hcore, hc⟩ := tight.head
    have marked : Tight (core ++ after ++ ['!']) :=
      ⟨⟨c, rest ++ after ++ ['!'], by simp [hcore], hc⟩, ⟨_, '!', rfl, by decide⟩⟩
    have trimmed : trim (before ++ core ++ after ++ ['!'] ++ behind) = core ++ after ++ ['!'] := by
      rw [← trim_append hbefore marked hbehind]
      simp only [List.append_assoc]
    have front : trim (core ++ after) = core := trim_append Blanks.nil tight hafter
    have last : stripLast? '!' (core ++ after ++ ['!']) = some (core ++ after) :=
      stripLast?_iff.mpr rfl
    calc
      splitMark (trim (before ++ core ++ after ++ ['!'] ++ behind))
      _ = splitMark (core ++ after ++ ['!']) := congrArg splitMark trimmed
      _ = (trim (core ++ after), false) := splitMark_marked last
      _ = (core, false) := congrArg (·, false) front

/-! ## Reading -/

section Reading

variable {α : Type} {named : String → Bool → Option α} {isNamed : String → Prop}
  {ofName : String → Bool → α} {list : α → Bool → α} {cs : List Char} {a : α}

theorem trim_ne_nil {core : List Char} {nullable : Bool} (h : splitMark (trim cs) = (core, nullable))
    (hcore : core ≠ []) : trim cs ≠ [] := by
  intro empty
  rw [empty] at h
  cases h
  exact hcore rfl

theorem read_bracketed {inner : List Char} {nullable : Bool}
    (h : splitMark (trim cs) = ('[' :: inner ++ [']'], nullable)) :
    read named list cs = (do
      let element ← read named list inner
      pure (list element nullable)) := by
  have brackets := inBrackets?_iff.mpr (rfl : '[' :: inner ++ [']'] = _)
  rw [read, if_neg (trim_ne_nil h (by simp))]
  split
  · rename_i found hfound
    rw [h, brackets] at hfound
    cases hfound
    rw [h]
  · rename_i missing
    rw [h, brackets] at missing
    cases missing

theorem read_named {core : List Char} {nullable : Bool} (h : splitMark (trim cs) = (core, nullable))
    (full : trim cs ≠ []) (bare : inBrackets? core = none) : read named list cs =
      (named (String.ofList core) nullable).elim (.error (String.ofList cs)) .ok := by
  rw [read, if_neg full]
  split
  · rename_i found hfound
    rw [h, bare] at hfound
    cases hfound
  · rw [h]
    cases named (String.ofList core) nullable <;> rfl

/-- What the grammar derives is read. -/
theorem Denotes.read_eq (names : Names named isNamed ofName) (h : Denotes isNamed ofName list cs a) :
    read named list cs = .ok a := by
  induction h with
  | @name before after behind name nullable hbefore hafter hbehind hname =>
    have tight := names.tight name hname
    obtain ⟨c, rest, hcore, -⟩ := tight.head
    have split := splitMark_eq nullable hbefore hafter hbehind tight
      (names.unmarked name hname)
    rw [read_named split (trim_ne_nil split (by simp [hcore])) (names.bare name hname),
      String.ofList_toList, (names.known name nullable _).mpr ⟨hname, rfl⟩]
    rfl
  | @list before inner after behind element nullable hbefore hafter hbehind _ ih =>
    have tight : Tight ('[' :: inner ++ [']']) :=
      ⟨⟨'[', inner ++ [']'], rfl, by decide⟩, ⟨'[' :: inner, ']', rfl, by decide⟩⟩
    have split := splitMark_eq nullable hbefore hafter hbehind tight (by simp [List.getLast?_cons])
    rw [read_bracketed split, ih]
    rfl

/-- What is read is derived by the grammar. -/
theorem denotes_of_read (names : Names named isNamed ofName) (h : read named list cs = .ok a) :
    Denotes isNamed ofName list cs a := by
  induction hn : cs.length using Nat.strongRecOn generalizing cs a with
  | ind n ih =>
    have full : trim cs ≠ [] := by
      intro empty
      rw [read, if_pos empty] at h
      cases h
    obtain ⟨before, after, behind, hbefore, hafter, hbehind, whole⟩ := exists_splitMark cs
    obtain ⟨⟨core, nullable⟩, split⟩ : ∃ parts, splitMark (trim cs) = parts := ⟨_, rfl⟩
    rw [split] at whole
    rw [whole]
    cases brackets : inBrackets? core with
    | some inner =>
      obtain rfl := inBrackets?_iff.mp brackets
      have shorter : inner.length < n := by
        rw [← hn, whole]
        simp only [List.length_append, List.length_cons]
        omega
      rw [read_bracketed split] at h
      obtain ⟨element, hread, h⟩ := bind_ok.mp h
      cases h
      exact .list hbefore hafter hbehind (ih inner.length shorter hread rfl)
    | none =>
      rw [read_named split full brackets] at h
      cases known : named (String.ofList core) nullable with
      | none =>
        rw [known] at h
        cases h
      | some b =>
        rw [known] at h
        cases h
        obtain ⟨hname, rfl⟩ := (names.known _ _ _).mp known
        have derived : Denotes isNamed ofName list (before ++ (String.ofList core).toList ++ after ++
            (Ty.mark nullable).toList ++ behind) (ofName (String.ofList core) nullable) :=
          .name hbefore hafter hbehind hname
        rwa [String.toList_ofList] at derived

/-- Reading accepts the grammar and nothing else, and gives what a derivation denotes. -/
theorem read_iff (names : Names named isNamed ofName) :
    read named list cs = .ok a ↔ Denotes isNamed ofName list cs a :=
  ⟨denotes_of_read names, Denotes.read_eq names⟩

end Reading

/-! ## Names -/

theorem continuesName_of_startsName {c : Char} (h : startsName c = true) : continuesName c = true := by
  simp only [startsName, continuesName, Char.isAlphanum, Bool.or_eq_true] at h ⊢
  exact h.imp .inl id

/-- No character of a name is blank. -/
theorem isBlank_of_continuesName {c : Char} (h : continuesName c = true) : isBlank c = false := by
  have range : 48 ≤ c.toNat ∧ c.toNat ≤ 122 := by
    simp only [continuesName, Char.isAlphanum, Char.isAlpha, Char.isUpper, Char.isLower, Char.isDigit,
      Bool.or_eq_true, Bool.and_eq_true, decide_eq_true_eq, beq_iff_eq, UInt32.le_iff_toNat_le,
      ge_iff_le] at h
    rcases h with (((⟨low, high⟩ | ⟨low, high⟩) | ⟨low, high⟩) | rfl)
    · exact ⟨Nat.le_trans (by decide) low, Nat.le_trans high (by decide)⟩
    · exact ⟨Nat.le_trans (by decide) low, high⟩
    · exact ⟨low, Nat.le_trans high (by decide)⟩
    · decide
  simp [isBlank, blankRanges]
  omega

/-- A name has a first character, and all of them continue names. -/
theorem chars_of_isName {name : String} (h : isName name = true) :
    (∃ c rest, name.toList = c :: rest) ∧ ∀ c ∈ name.toList, continuesName c = true := by
  unfold isName at h
  split at h
  · cases h
  · rename_i c rest hchars
    rw [hchars]
    obtain ⟨first, others⟩ := Bool.and_eq_true_iff.mp h
    exact ⟨⟨c, rest, rfl⟩, List.forall_mem_cons.mpr
      ⟨continuesName_of_startsName first, List.all_eq_true.mp others⟩⟩

theorem tight_of_isName {name : String} (h : isName name = true) : Tight name.toList := by
  obtain ⟨⟨c, rest, hchars⟩, all⟩ := chars_of_isName h
  refine ⟨⟨c, rest, hchars, isBlank_of_continuesName (all c (by simp [hchars]))⟩, ?_⟩
  have full : name.toList ≠ [] := by simp [hchars]
  exact ⟨_, _, (List.dropLast_append_getLast full).symm,
    isBlank_of_continuesName (all _ (List.getLast_mem full))⟩

end Reference

/-! ## Types -/

namespace Ty

open Reference

/-- The type of a name: the scalar of that name, or else the entity. -/
def ofName (name : String) (nullable : Bool) : Ty :=
  match Scalar.ofName? name with
  | some s => .scalar s nullable
  | none => .entity name nullable

def ReferredBy (t : Ty) (text : String) : Prop :=
  Denotes (isName · = true) ofName .list text.toList t

/-- The types that references denote: scalars, entities with names that no scalar has, and lists of
them. -/
def Referable : Ty → Prop
  | .scalar _ _ => True
  | .entity name _ => isName name = true ∧ Scalar.ofName? name = none
  | .list t _ => t.Referable
  | _ => False

theorem scalar_of_name {name : String} {s : Scalar} :
    Scalar.ofName? name = some s ↔ s.name = name := by
  constructor
  · intro h
    simpa using List.find?_some h
  · rintro rfl
    cases s <;> decide

theorem isName_scalar (s : Scalar) : isName s.name = true := by
  cases s <;> decide

theorem names : Names named? (isName · = true) ofName where
  known name nullable t := by
    unfold named? ofName
    cases known : Scalar.ofName? name with
    | some s =>
      have hname := isName_scalar s
      rw [scalar_of_name.mp known] at hname
      simp only [hname, Option.some.injEq, true_and]
      exact eq_comm
    | none =>
      simp only [Option.ite_none_right_eq_some, Option.some.injEq]
      exact and_congr_right fun _ => eq_comm
  tight _ := tight_of_isName
  unmarked name h last := by
    have mark := (chars_of_isName h).2 '!' (List.mem_of_getLast? last)
    exact absurd mark (by decide)
  bare name h := by
    obtain ⟨⟨c, rest, hchars⟩, all⟩ := chars_of_isName h
    cases brackets : inBrackets? name.toList with
    | none => rfl
    | some inner =>
      have bracket := all '[' (by rw [inBrackets?_iff.mp brackets]; simp)
      exact absurd bracket (by decide)

/-- A type of references is denoted by its notation. -/
theorem Referable.text {t : Ty} (h : t.Referable) : t.ReferredBy t.text := by
  have named : ∀ name n, isName name = true → (ofName name n).ReferredBy (name ++ mark n) := by
    intro name n hname
    have derived : Denotes (isName · = true) ofName .list
        ([] ++ name.toList ++ [] ++ (mark n).toList ++ []) (ofName name n) :=
      .name .nil .nil .nil hname
    simpa only [ReferredBy, String.toList_append, List.nil_append, List.append_nil] using derived
  match t, h with
  | .scalar s n, _ =>
    have known := named s.name n (isName_scalar s)
    rwa [ofName, scalar_of_name.mpr rfl] at known
  | .entity name n, ⟨hname, unknown⟩ =>
    have known := named name n hname
    rwa [ofName, unknown] at known
  | .list t n, h =>
    have element : t.ReferredBy t.text := Referable.text h
    have derived : Denotes (isName · = true) ofName .list
        ([] ++ ('[' :: t.text.toList ++ [']']) ++ [] ++ (mark n).toList ++ []) (.list t n) :=
      .list .nil .nil .nil element
    simpa [ReferredBy, Ty.text] using derived

/-- References denote no other types. -/
theorem ReferredBy.referable {t : Ty} {text : String} (h : t.ReferredBy text) : t.Referable := by
  unfold ReferredBy at h
  generalize text.toList = cs at h
  induction h with
  | @name _ _ _ name nullable _ _ _ hname =>
    unfold ofName
    cases known : Scalar.ofName? name with
    | some s => trivial
    | none => exact ⟨hname, known⟩
  | list _ _ _ _ ih => exact ih

theorem ofReference_iff {t : Ty} {text : String} :
    ofReference text = .ok t ↔ t.ReferredBy text := read_iff names

/-- A text is read just when the grammar derives it, as the type that the derivation denotes. A type of
references is read from its own notation, and what was read is such a type: written again and read
again it is the same. -/
theorem ofReference_exact (t : Ty) (text : String) :
    (ofReference text = .ok t ↔ t.ReferredBy text) ∧
    (t.Referable → ofReference t.text = .ok t) ∧
    (ofReference text = .ok t → t.Referable ∧ ofReference t.text = .ok t) := by
  have printed : t.Referable → ofReference t.text = .ok t := fun h => ofReference_iff.mpr h.text
  refine ⟨ofReference_iff, printed, fun h => ?_⟩
  have referable := (ofReference_iff.mp h).referable
  exact ⟨referable, printed referable⟩

/-- A nested list, with blanks in its reference. -/
theorem ofReference_exact_nested :
    let t : Ty := .list (.list (.entity "Person" false) true) false
    t.Referable ∧ t.ReferredBy " [ [Person!\u00A0] ] ! " ∧ t.text = "[[Person!]]!" ∧
      ofReference t.text = .ok t := by
  intro t
  have referable : t.Referable := ⟨by decide, by decide⟩
  exact ⟨referable, (ofReference_exact t " [ [Person!\u00A0] ] ! ").1.mp (by cbv), by decide,
    (ofReference_exact t "").2.1 referable⟩

end Ty

end FieldPlan
