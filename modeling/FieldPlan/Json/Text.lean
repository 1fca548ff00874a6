import FieldPlan.Binary64.Shortest
import FieldPlan.Json.Basic

/-!
# The text of JSON values

* `Json.compact` : the text without spaces, as it stands inside messages and plans;
* `Json.pretty` : the text over lines indented by two spaces.
-/

namespace FieldPlan.Json

/-- The lower-case hexadecimal digit of a number below sixteen. -/
def hexDigit (n : Nat) : Char := (Nat.toDigits 16 n).headD '0'

/-- The characters that stand for `c` inside a quoted text. -/
def escape (c : Char) : List Char :=
  if c = '"' then ['\\', '"']
  else if c = '\\' then ['\\', '\\']
  else if c = '\n' then ['\\', 'n']
  else if c = '\r' then ['\\', 'r']
  else if c = '\t' then ['\\', 't']
  else if c.toNat = 8 then ['\\', 'b']
  else if c.toNat = 12 then ['\\', 'f']
  else if c.toNat < 32 then ['\\', 'u', '0', '0', hexDigit (c.toNat / 16), hexDigit (c.toNat % 16)]
  else [c]

def quoted (s : String) : String :=
  "\"" ++ String.ofList (s.toList.flatMap escape) ++ "\""

/-- The text of a value that holds no others. -/
def atomText : Json → String
  | .null => "null"
  | .bool b => if b then "true" else "false"
  | .int n => toString n
  | .double x => x.text
  | .str s => quoted s
  | .arr _ => "[]"
  | .obj _ => "\x7b\x7d"

/-! ## Compact text -/

mutual

def compact : Json → String
  | .arr items => "[" ++ ",".intercalate (compactItems items) ++ "]"
  | .obj members => "\x7b" ++ ",".intercalate (compactMembers members) ++ "\x7d"
  | v => atomText v

def compactItems : List Json → List String
  | [] => []
  | v :: vs => compact v :: compactItems vs

def compactMembers : List (String × Json) → List String
  | [] => []
  | (k, v) :: rest => (quoted k ++ ":" ++ compact v) :: compactMembers rest

end

/-! ## Indented text -/

def newline (depth : Nat) : String := "\n" ++ String.ofList (List.replicate (2 * depth) ' ')

/-- Entries on lines of their own, between brackets. -/
def block (opening closing : String) (depth : Nat) (entries : List String) : String :=
  opening ++ newline (depth + 1) ++ ("," ++ newline (depth + 1)).intercalate entries ++
    newline depth ++ closing

mutual

/-- The text over lines, for a value at a depth. -/
def prettyAt (depth : Nat) : Json → String
  | .arr [] => "[]"
  | .arr (v :: vs) => block "[" "]" depth (prettyItems (depth + 1) (v :: vs))
  | .obj [] => "\x7b\x7d"
  | .obj (m :: ms) => block "\x7b" "\x7d" depth (prettyMembers (depth + 1) (m :: ms))
  | v => atomText v

def prettyItems (depth : Nat) : List Json → List String
  | [] => []
  | v :: vs => prettyAt depth v :: prettyItems depth vs

def prettyMembers (depth : Nat) : List (String × Json) → List String
  | [] => []
  | (k, v) :: rest => (quoted k ++ ": " ++ prettyAt depth v) :: prettyMembers depth rest

end

/-- The text over lines indented by two spaces. -/
def pretty (v : Json) : String := prettyAt 0 v

end FieldPlan.Json
