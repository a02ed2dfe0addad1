import StreamLang.Stream.History
/-!
Events on their way to the streams. Any number of senders may add to the inbox at any time; an event
that does not fit is refused to its sender, and the rest waits for the next pass.
-/
namespace StreamLang

structure StreamEvent where
  stream : String
  value : Value
  deriving Repr

structure Inbox where
  catalog : Catalog
  /-- What waits, in order of arrival. -/
  events : List StreamEvent
  closed : Bool
  deriving Repr

namespace Inbox

def new (catalog : Catalog) : Inbox := ⟨catalog, [], false⟩

/-- A closed inbox takes nothing, whatever is sent. -/
def send (b : Inbox) (stream : String) (v : Value) : Except Error Inbox :=
  if b.closed then .error .stopped
  else match b.catalog.get? stream with
    | none => .error (.unknownStream stream)
    | some spec => do
      spec.check v
      return { b with events := b.events ++ [⟨stream, v⟩] }

def drain (b : Inbox) : List StreamEvent × Inbox := (b.events, { b with events := [] })

/-- Forgets what waits and refuses all that comes. -/
def close (b : Inbox) : Inbox := { b with events := [], closed := true }

end Inbox
end StreamLang
