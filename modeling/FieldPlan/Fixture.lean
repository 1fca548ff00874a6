import FieldPlan.Json.Decode
import FieldPlan.Json.Reader
import FieldPlan.Json.Text
import FieldPlan.Service

/-!
# Canned services

* `CannedService`, `Fixture` : the answers of a service by method and arguments, and of services;
* `Fixture.read` : from the text of a table of services, methods and answers;
* `Fixture.services` : the services that give these answers, arguments being told by their text.
-/

namespace FieldPlan

/-- An answer to the arguments whose text is `key`. -/
structure CannedAnswer where
  key : String
  result : Json
deriving Inhabited

/-- The answers of a service by method, a later one counting more. -/
abbrev CannedService := Dict (List CannedAnswer)

/-- The answers of services by name. -/
abbrev Fixture := Dict CannedService

/-- The text that tells arguments. -/
def argumentsKey (args : List Json) : String := (Json.arr args).compact

def CannedService.service {σ : Type} (c : CannedService) : Service σ := fun method args =>
  match ((c.find? method).getD []).reverse.find? fun a => a.key == argumentsKey args with
  | some a => pure a.result
  | none => throw (.failed ("no fixture for " ++ method ++ argumentsKey args))

namespace Fixture

open Decode

def decodeAnswer : Decoder CannedAnswer := fun d => do
  let ms ← record ["args", "result"] false d
  let args ← optional ms "args" (items value) []
  let result ← optional ms "result" value .null
  pure ⟨argumentsKey args, result⟩

def decode : Decoder Fixture := table (table (items decodeAnswer))

/-- Reads the text of the answers of services. -/
def read (text : String) : Option Fixture := (Document.read text).bind decode

/-- The services that give canned answers. -/
def services {σ : Type} (f : Fixture) : Services σ := fun name => (f.find? name).map (·.service)

end Fixture

end FieldPlan
