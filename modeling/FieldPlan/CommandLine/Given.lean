/-!
# Options on a command line

* `OptionSpec` : an option, the value that it takes and what it is for;
* `Given` : the options that words give, each at most once and each with a value of its kind;
* `Given.read` : takes the options at the front of words; an option that settles everything, such as
  a wish for help, leaves the words after it unread.
-/

namespace FieldPlan

/-- How plans are shown. -/
inductive Format where
  | text
  | json
deriving DecidableEq, Repr, Inhabited

def Format.word : Format → String
  | .text => "text"
  | .json => "json"

def Format.ofWord? (word : String) : Option Format :=
  [Format.text, .json].find? fun f => f.word == word

/-- The count that a word writes, a plus sign before it being allowed. -/
def count? (word : String) : Option Nat :=
  let digits := match word.toList with
    | '+' :: cs => cs
    | cs => cs
  if !digits.isEmpty && digits.all Char.isDigit then
    let n := digits.foldl (fun n c => n * 10 + (c.toNat - '0'.toNat)) 0
    if n < Nat.pow 2 64 then some n else none
  else none

/-- What value an option takes. -/
inductive OptionValue where
  | absent
  | file
  | count
  | format
deriving DecidableEq, Repr, Inhabited

/-- Whether a word is a value of a kind; the name of a file is not empty. -/
def OptionValue.accepts : OptionValue → String → Bool
  | .absent, _ => false
  | .file, word => word != ""
  | .count, word => (count? word).isSome
  | .format, word => (Format.ofWord? word).isSome

/-- An option. A `final` one settles what the words ask for. -/
structure OptionSpec where
  name : String
  letter : Option Char := none
  value : OptionValue := .absent
  required : Bool := false
  final : Bool := false
  about : String := ""
deriving Repr, Inhabited

abbrev Given := List (OptionSpec × Option String)

namespace Given

def has (given : Given) (name : String) : Bool := given.any fun e => e.1.name == name

def value? (given : Given) (name : String) : Option String :=
  (given.find? fun e => e.1.name == name).bind (·.2)

/-- Whether an option settled what the words ask for. -/
def isFinal (given : Given) : Bool := given.any fun e => e.1.final

/-- Adds an option that is not there yet, with a value of its kind. -/
def add (given : Given) (spec : OptionSpec) (value : Option String) : Option Given :=
  let fits := match value with
    | none => spec.value == .absent
    | some word => spec.value.accepts word
  if fits && !given.has spec.name then some (given ++ [(spec, value)]) else none

def addLetters (specs : List OptionSpec) : List Char → Given → Option Given
  | [], given => some given
  | c :: cs, given =>
    if given.isFinal then some given
    else do
      let spec ← specs.find? fun s => s.letter == some c
      let given ← given.add spec none
      addLetters specs cs given

/-- A name, and the value that an equals sign attaches to it. -/
def splitEquals (cs : List Char) : String × Option String :=
  let name := String.ofList (cs.takeWhile (· != '='))
  match cs.dropWhile (· != '=') with
  | _ :: value => (name, some (String.ofList value))
  | [] => (name, none)

/-- Whether a word can be the value of an option: one that starts with a dash is an option itself.
-/
def isValue (word : String) : Bool := word == "-" || word.toList.head? != some '-'

/-- Takes the options at the front of words and leaves the words after them. -/
def read (specs : List OptionSpec) : List String → Given → Option (Given × List String)
  | [], given => some (given, [])
  | word :: rest, given =>
    if given.isFinal then some (given, word :: rest)
    else
      match word.toList with
      | ['-'] | ['-', '-'] => some (given, word :: rest)
      | '-' :: '-' :: cs =>
        let (name, attached) := splitEquals cs
        match specs.find? fun s => s.name == name with
        | none => none
        | some spec =>
          if attached.isSome || spec.value == .absent then
            (given.add spec attached).bind (read specs rest)
          else
            match rest with
            | value :: rest =>
              if isValue value then (given.add spec (some value)).bind (read specs rest) else none
            | [] => none
      | '-' :: cs => (addLetters specs cs given).bind (read specs rest)
      | _ => some (given, word :: rest)

end Given

end FieldPlan
