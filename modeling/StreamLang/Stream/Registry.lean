import StreamLang.Stream.History
import StreamLang.Stream.EventLog
/-!
All streams of a program, in catalog order. A snapshot freezes what each of them shows; a stream has
changed in it if events came in since the last snapshot that a pass committed.
-/
namespace StreamLang

/-- One stream as a pass sees it. -/
structure SnapshotEntry where
  value : Value
  version : Nat
  changed : Bool
  /-- Whether the value is only the default of an unavailable stream. -/
  degraded : Bool
  onDemand : Bool
  deriving Repr

structure Snapshot where
  pass : Nat
  entries : Assoc String SnapshotEntry
  deriving Repr

namespace Snapshot

def get? (s : Snapshot) (stream : String) : Option SnapshotEntry := Assoc.get? stream s.entries

def changed (s : Snapshot) : List String := (s.entries.filter (·.2.changed)).map (·.1)

end Snapshot

/-- An accepted event, with the nodes that its stream is read by. -/
structure Recorded where
  stream : String
  version : Nat
  readers : List NodeId
  deriving Repr

structure Registry where
  streams : Assoc String Stream
  /-- How many events all streams took together. -/
  sequence : Nat
  deriving Repr

namespace Registry

def new (catalog : Catalog) (limit : Nat) : Registry :=
  ⟨catalog.specs.map fun (name, spec) => (name, .new spec limit), 0⟩

def stream? (r : Registry) (name : String) : Option Stream := Assoc.get? name r.streams

def set (r : Registry) (name : String) (s : Stream) : Registry :=
  { r with streams := Assoc.put name s r.streams }

def mapStreams (r : Registry) (f : Stream → Stream) : Registry :=
  { r with streams := r.streams.map fun (name, s) => (name, f s) }

/-- Gives an event to its stream. Both change in place, so a call that is refused leaves what has been
changed until then. -/
def take (name : String) (v : Value) : EStateM Error Registry Recorded := fun r =>
  match r.stream? name with
  | none => .error (.unknownStream name) r
  | some s =>
    match (Stream.take v r.sequence).run s with
    | .error e s => .error e (r.set name s)
    | .ok version s =>
      .ok ⟨name, version, s.readers⟩ { r.set name s with sequence := r.sequence + 1 }

/-- What an event was recorded as and the registry after it, unless it is refused. -/
def record (r : Registry) (name : String) (v : Value) : Except Error (Recorded × Registry) :=
  match (take name v).run r with
  | .ok recorded r => .ok (recorded, r)
  | .error e _ => .error e

/-- Adds a reader and tells whether it is new. -/
def subscribe (r : Registry) (name : String) (node : NodeId) : Bool × Registry :=
  match r.stream? name with
  | none => (false, r)
  | some s => (!s.readers.contains node, r.set name { s with readers := pushNew s.readers node })

def subscribeAll (r : Registry) (readers : List (String × NodeId)) : Registry :=
  readers.foldl (fun r (name, node) => (r.subscribe name node).2) r

def readers (r : Registry) (name : String) : List NodeId :=
  ((r.stream? name).map (·.readers)).getD []

def readerCount (r : Registry) : Nat := r.streams.foldl (fun n (_, s) => n + s.readers.length) 0

def unsubscribeAll (r : Registry) : Registry := r.mapStreams ({ · with readers := [] })

def snapshot (r : Registry) (pass : Nat) : Snapshot :=
  ⟨pass, r.streams.map fun (name, s) =>
    (name, ⟨s.current, s.version, s.observed < s.version, !s.available,
      s.spec.emission == .onDemand⟩)⟩

/-- Remembers the versions that a committed pass saw. -/
def markObserved (r : Registry) (seen : Snapshot) : Registry :=
  { r with streams := r.streams.map fun (name, s) =>
      match seen.get? name with
      | some e => (name, { s with observed := e.version })
      | none => (name, s) }

/-- Opens or closes a stream and gives its readers, none if nothing changes. -/
def setAvailable (r : Registry) (name : String) (available : Bool) :
    Except Error (List NodeId × Registry) :=
  match r.stream? name with
  | none => .error (.unknownStream name)
  | some s =>
    if s.available = available then .ok ([], r)
    else .ok (s.readers, r.set name { s with available })

def eventLog (r : Registry) : EventLog :=
  .ordered (r.streams.flatMap fun (name, s) =>
    s.history.map fun e => ⟨e.sequence, name, e.input⟩)

end Registry
end StreamLang
