/-!
What can be set about an engine. Everything has a default.
-/
namespace StreamLang

/-- What to do about nodes that a diagnostic blocks. -/
inductive ConflictPolicy where
  /-- Evaluate all the same; such a node gives a failure. -/
  | attach
  /-- Start no pass while there is such a node. -/
  | refuse
  deriving DecidableEq, Repr

/-- What reading an unavailable stream gives. -/
inductive UnavailablePolicy where
  /-- The default of the stream, which is then reported as degraded. -/
  | degrade
  /-- A failure. -/
  | exception
  deriving DecidableEq, Repr

structure Config where
  /-- How many steps one pass may take. -/
  stepBudget : Nat
  /-- How many events are kept of each stream. -/
  historyLimit : Nat
  /-- How many values are kept, those of reactions apart; nothing keeps all. -/
  cacheCapacity : Option Nat
  conflictPolicy : ConflictPolicy
  unavailablePolicy : UnavailablePolicy
  deriving DecidableEq, Repr

inductive ConfigError where
  /-- The text could not be loaded. -/
  | unavailable
  /-- A text that describes no configuration. -/
  | unreadable
  /-- A setting that has to be positive and is not. -/
  | notPositive (setting : String)
  deriving DecidableEq, Repr

/-- What is said of a bad setting; nothing is said of a bad text. -/
def ConfigError.message? : ConfigError → Option String
  | unavailable | unreadable => none
  | notPositive setting => some ("invalid config: " ++ setting ++ " must be positive")

namespace Config

def default : Config := ⟨250000, 1024, none, .attach, .degrade⟩

def validate (c : Config) : Except ConfigError Config :=
  if c.stepBudget = 0 then .error (.notPositive "step_budget")
  else if c.historyLimit = 0 then .error (.notPositive "history_limit")
  else .ok c

end Config
end StreamLang
