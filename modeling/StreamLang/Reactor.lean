import StreamLang.Config.Basic
import StreamLang.Cache
import StreamLang.Machine.Record
import StreamLang.Staleness
import StreamLang.Stream.Inbox
import StreamLang.Stream.Registry
/-!
What is kept from one pass to the next: streams with their waiting events, marks, and committed
values. A pass begins by taking in what waits; after that nothing reaches it. When it commits, all
that it did takes effect together. Of a pass that does not commit only its subscriptions stay.
-/
namespace StreamLang

structure Reactor where
  registry : Registry
  inbox : Inbox
  staleness : Staleness
  cache : Cache
  /-- Nodes that were told in the last committed pass that their stream had changed. -/
  edgeTriggered : List NodeId
  /-- The number of the pass begun last. -/
  pass : Nat
  capacity : Option Nat

namespace Reactor

def new (catalog : Catalog) (config : Config) : Reactor :=
  { registry := .new catalog config.historyLimit
    inbox := .new catalog
    staleness := .empty
    cache := .empty
    edgeTriggered := []
    pass := 0
    capacity := config.cacheCapacity }

def send (r : Reactor) (stream : String) (v : Value) : Except Error Reactor := do
  return { r with inbox := ← r.inbox.send stream v }

/-- Gives an event to its stream and marks what depends on it. -/
def record (r : Reactor) (p : Program) (stream : String) (v : Value) :
    Except Error (Recorded × Reactor) := do
  let (recorded, registry) ← r.registry.record stream v
  return (recorded,
    { r with registry, staleness := r.staleness.markAllChanged p recorded.readers })

/-- Takes in an event that was accepted before; one that is refused now is dropped. -/
def takeIn (p : Program) (r : Reactor) (e : StreamEvent) : Reactor :=
  match r.record p e.stream e.value with
  | .ok (_, r) => r
  | .error _ => r

/-- Subscribes all readers of a program, also those that no pass has come to yet. -/
def subscribeReaders (r : Reactor) (a : Analysis) : Reactor :=
  { r with registry := r.registry.subscribeAll a.readers }

/-- Takes in what waits, marks again the nodes that saw a change, and freezes all streams. -/
def beginPass (r : Reactor) (p : Program) : Snapshot × Reactor :=
  let (events, inbox) := r.inbox.drain
  let r := events.foldl (takeIn p) { r with inbox }
  let r := { r with
    staleness := r.staleness.markAllChanged p r.edgeTriggered
    edgeTriggered := []
    pass := r.pass + 1 }
  (r.registry.snapshot r.pass, r)

def applySubscriptions (r : Reactor) (done : Record) : Reactor :=
  { r with registry := r.registry.subscribeAll done.subscriptions }

/-- What is committed of a write. -/
def entryOf (pass : Nat) (w : Write) : CacheEntry :=
  ⟨w.value, pass, w.streamVersion, w.reusable, w.reaction⟩

def applyWrites (r : Reactor) (pass : Nat) (writes : Assoc NodeId Write) : Reactor :=
  writes.foldl (fun r (i, w) =>
    { r with
      cache := r.cache.put i (entryOf pass w)
      staleness := r.staleness.markClean i }) r

def evictOver (r : Reactor) : Reactor :=
  match r.capacity with
  | none => r
  | some capacity => { r with cache := (r.cache.evict capacity).2 }

/-- Makes all that a pass did take effect. -/
def commit (r : Reactor) (t : Tree) (seen : Snapshot) (done : Record) : Reactor :=
  let r := r.applyWrites seen.pass done.writes
  let staleness := done.cleaned.foldl (fun s i => s.cleanSubtree t i) r.staleness
  let r := { r with staleness := staleness.promote }.applySubscriptions done
  let r := { r with
    edgeTriggered := done.edgeTriggered
    registry := r.registry.markObserved seen }
  r.evictOver

/-- Drops a pass that does not commit. -/
def discard (r : Reactor) (done : Record) : Reactor := r.applySubscriptions done

def setAvailable (r : Reactor) (p : Program) (stream : String) (available : Bool) :
    Except Error Reactor := do
  let (readers, registry) ← r.registry.setAvailable stream available
  return { r with registry, staleness := r.staleness.markAllChanged p readers }

/-- Forgets all that belongs to the present program. -/
def invalidate (r : Reactor) : Reactor :=
  { r with
    cache := .empty
    staleness := .empty
    edgeTriggered := []
    registry := r.registry.unsubscribeAll }

/-- Refuses events from now on; those that wait are lost. -/
def stop (r : Reactor) : Reactor :=
  { r with inbox := r.inbox.close, registry := r.registry.unsubscribeAll, edgeTriggered := [] }

end Reactor
end StreamLang
