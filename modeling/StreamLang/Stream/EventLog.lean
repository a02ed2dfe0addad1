import StreamLang.Value.Basic
/-!
The kept events of all streams in the order in which they were recorded.
-/
namespace StreamLang

structure LoggedEvent where
  sequence : Nat
  stream : String
  input : Value
  deriving Repr

abbrev EventLog := List LoggedEvent

/-- Puts events in order of recording. -/
def EventLog.ordered (events : List LoggedEvent) : EventLog :=
  events.mergeSort fun a b => a.sequence ≤ b.sequence

end StreamLang
