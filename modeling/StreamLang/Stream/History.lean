import StreamLang.Stream.Catalog
import StreamLang.Error
import StreamLang.Value.Display
/-!
A stream with the events it took. Every accepted event gets the next version, and the newest events
are kept up to a limit. A stream of clock readings counts from its first reading.
-/
namespace StreamLang

structure HistoryEntry where
  version : Nat
  /-- The position among the events of all streams. -/
  sequence : Nat
  /-- What was pushed. -/
  input : Value
  /-- What programs read. -/
  value : Value
  deriving Repr

structure Stream where
  spec : StreamSpec
  /-- The kept events, oldest first. -/
  history : List HistoryEntry
  limit : Nat
  /-- How many events were ever accepted. -/
  version : Nat
  /-- The first clock reading. -/
  origin : Option Amount
  available : Bool
  /-- The nodes that read the stream, in the order of their first reading. -/
  readers : List NodeId
  /-- The version that the last committed pass saw. -/
  observed : Nat
  deriving Repr

/-- What a source gets when its value does not fit. -/
def StreamSpec.check (spec : StreamSpec) (v : Value) : Except Error Unit :=
  if spec.shape.accepts v then .ok ()
  else .error (.streamContract spec.name spec.shape.describe v.display)

namespace Stream

/-- At least one event is kept. -/
def new (spec : StreamSpec) (limit : Nat) : Stream :=
  ⟨spec, [], max limit 1, 0, none, true, [], 0⟩

def latest (s : Stream) : Value := ((s.history.getLast?).map (·.value)).getD s.spec.default

/-- What a pass reads now. -/
def current (s : Stream) : Value := if s.available then s.latest else s.spec.default

/-- What programs read of an input, and the origin from then on. -/
def observe (s : Stream) (input : Value) : Value × Option Amount :=
  match s.spec.emission, input with
  | .elapsed, .number n =>
    let origin := s.origin.getD n.amount
    (milliseconds (n.amount - origin), some origin)
  | _, _ => (input, s.origin)

/-- Drops the oldest entries beyond a limit. -/
def keepNewest (limit : Nat) (history : List α) : List α := history.drop (history.length - limit)

/-- Takes an event and gives its version. The stream changes in place, so a call that is refused leaves
what it has changed until then. -/
def take (input : Value) (sequence : Nat) : EStateM Error Stream Nat := fun s =>
  match s.spec.check input with
  | .error e => .error e s
  | .ok () =>
    let (value, origin) := s.observe input
    let s := { s with origin, version := s.version + 1 }
    let entry : HistoryEntry := ⟨s.version, sequence, input, value⟩
    let s := { s with history := keepNewest s.limit (s.history ++ [entry]) }
    .ok s.version s

/-- The stream after an event, unless it is refused. -/
def record (s : Stream) (input : Value) (sequence : Nat) : Except Error Stream :=
  match (take input sequence).run s with
  | .ok _ s => .ok s
  | .error e _ => .error e

end Stream
end StreamLang
