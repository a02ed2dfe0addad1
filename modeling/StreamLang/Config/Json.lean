import StreamLang.Config.Basic
import StreamLang.Json.Reader
import StreamLang.Json.Writer
/-!
Configurations as JSON: an object in which every field may be missing, unknown ones are ignored, and
a known one may not appear twice.
-/
namespace StreamLang

namespace ConflictPolicy

def name : ConflictPolicy → String
  | attach => "attach"
  | refuse => "refuse"

def ofName? (s : String) : Option ConflictPolicy := [attach, refuse].find? (·.name == s)

end ConflictPolicy

namespace UnavailablePolicy

def name : UnavailablePolicy → String
  | degrade => "degrade"
  | exception => "exception"

def ofName? (s : String) : Option UnavailablePolicy := [degrade, exception].find? (·.name == s)

end UnavailablePolicy

namespace Config

def fieldNames : List String :=
  ["step_budget", "history_limit", "cache_capacity", "conflict_policy", "unavailable_policy"]

/-- What a field holds, or what it is when it is missing. -/
def fieldOr (fallback : α) (read : Json → Option α) : Option Json → Option α
  | none => some fallback
  | some j => read j

def ofJson? (j : Json) : Option Config := do
  let fields ← j.object?
  guard (Json.distinct fieldNames fields)
  let field name := Json.field? name fields
  let named (α : Type) (ofName? : String → Option α) (j : Json) :=
    (j.choice? false).bind ofName?
  let stepBudget ← fieldOr default.stepBudget Json.natural? (field "step_budget")
  let historyLimit ← fieldOr default.historyLimit Json.natural? (field "history_limit")
  let cacheCapacity ← Json.nullable? Json.natural? (field "cache_capacity")
  let conflictPolicy ←
    fieldOr default.conflictPolicy (named _ ConflictPolicy.ofName?) (field "conflict_policy")
  let unavailablePolicy ←
    fieldOr default.unavailablePolicy (named _ UnavailablePolicy.ofName?)
      (field "unavailable_policy")
  return { stepBudget, historyLimit, cacheCapacity, conflictPolicy, unavailablePolicy }

/-- Reads a text and checks what it says. -/
def ofText (s : String) : Except ConfigError Config :=
  match (Json.read Json.standardAllowance s).bind ofJson? with
  | some c => c.validate
  | none => .error .unreadable

def toJson (c : Config) : Json :=
  .object [("step_budget", .natural c.stepBudget), ("history_limit", .natural c.historyLimit),
    ("cache_capacity", (c.cacheCapacity.map .natural).getD .null),
    ("conflict_policy", .text c.conflictPolicy.name),
    ("unavailable_policy", .text c.unavailablePolicy.name)]

def toText (c : Config) : String := c.toJson.write

end Config
end StreamLang
