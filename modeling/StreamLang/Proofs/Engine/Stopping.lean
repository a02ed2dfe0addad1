import StreamLang.Proofs.Engine.Session
import StreamLang.Proofs.Stream.Arrival
/-!
Stopping is final. A stopped engine may still be asked for anything: another program, another
global, streams that come and go, listeners, or to stop again. It refuses every event and every
pass, and what it has done so far stays as it was when it stopped (`Engine.stop_is_final`).
-/
namespace StreamLang

namespace Registry

variable {r r' : Registry} {name : String}

/-- The streams as they would be if all were open and none had readers. -/
def bare (r : Registry) : Registry := r.mapStreams ({ · with available := true, readers := [] })

/-- No stream is read by anything. -/
def Unread (r : Registry) : Prop := ∀ p ∈ r.streams, p.2.readers = []

theorem readerCount_of_unread (h : r.Unread) : r.readerCount = 0 := by
  have key (streams : Assoc String Stream) (hs : ∀ p ∈ streams, p.2.readers = []) :
      streams.foldl (fun n p => n + p.2.readers.length) 0 = 0 := by
    induction streams with
    | nil => rfl
    | cons p rest ih =>
      rw [List.foldl_cons, hs p List.mem_cons_self]
      exact ih fun q hq => hs q (List.mem_cons_of_mem _ hq)
  exact key r.streams h

theorem unread_unsubscribeAll (r : Registry) : r.unsubscribeAll.Unread := by
  intro p hp
  obtain ⟨q, -, rfl⟩ := List.mem_map.1 hp
  rfl

theorem bare_unsubscribeAll (r : Registry) : r.unsubscribeAll.bare = r.bare := by
  simp [bare, unsubscribeAll, mapStreams, Function.comp_def]

/-- A stream that is opened or closed stays as it is otherwise, and so do all others. -/
theorem bare_setAvailable {available : Bool} {readers : List NodeId}
    (h : r.setAvailable name available = .ok (readers, r')) : r'.bare = r.bare := by
  rw [setAvailable_eq] at h
  split at h
  · cases h
  · cases h
    unfold switch
    cases hs : r.stream? name with
    | none => rfl
    | some s =>
      have hbare : r.bare.stream? name = some { s with available := true, readers := [] } := by
        rw [bare, stream?_mapStreams, hs]
        rfl
      rw [bare, mapStreams_set]
      exact set_of_stream? hbare

theorem unread_setAvailable {available : Bool} {readers : List NodeId} (hr : r.Unread)
    (h : r.setAvailable name available = .ok (readers, r')) : r'.Unread := by
  rw [setAvailable_eq] at h
  split at h
  · cases h
  · cases h
    unfold switch
    cases hs : r.stream? name with
    | none => exact hr
    | some s =>
      intro p hp
      rcases Assoc.mem_of_mem_put hp with rfl | hp
      · exact hr (name, s) (Assoc.mem_of_get? hs)
      · exact hr p hp

/-- Histories do not depend on who reads and what is open. -/
theorem history_of_bare (h : r'.bare = r.bare) (name : String) :
    (r'.stream? name).map (·.history) = (r.stream? name).map (·.history) := by
  have hbare (r : Registry) :
      (r.bare.stream? name).map (·.history) = (r.stream? name).map (·.history) := by
    rw [bare, stream?_mapStreams, Option.map_map]
    rfl
  rw [← hbare r', h, hbare r]

theorem eventLog_of_bare (h : r'.bare = r.bare) : r'.eventLog = r.eventLog := by
  have hbare (r : Registry) : r.bare.eventLog = r.eventLog := by
    simp [bare, mapStreams, eventLog, List.flatMap_map]
  rw [← hbare r', h, hbare r]

end Registry

namespace Engine

/-- What may be asked of an engine while no pass is open. -/
inductive Request where
  /-- An event from a sender. All senders of an engine share its inbox, whenever they were handed
  out. -/
  | send (stream : String) (v : Value)
  | addEvent (stream : String) (v : Value)
  | evaluate
  /-- A pass that is given up after so many ticks, unless it has ended by then. -/
  | pass (ticks : Nat)
  | replaceTree (t : Tree)
  | defineGlobal (name : String) (v : Value)
  | setAvailable (stream : String) (available : Bool)
  | addListener
  | removeListener (k : Nat)
  | requestAbort
  | stop

/-- Whether the request brings another program. -/
def Request.replaces : Request → Bool
  | replaceTree _ => true
  | _ => false

/-- The engine after a request. One that is refused changes nothing. -/
def serve (e : Engine) : Request → Engine
  | .send stream v => e.sent stream v
  | .addEvent stream v => e.told stream v
  | .evaluate => e.evaluate.2
  | .pass ticks => ((Pass.start e).toOption.map fun p => (p.ticks ticks).2.abandon.engine).getD e
  | .replaceTree t => e.replaceTree t
  | .defineGlobal name v => e.defineGlobal name v
  | .setAvailable stream available => (e.setAvailable stream available).toOption.getD e
  | .addListener => e.addListener.2
  | .removeListener k => (e.removeListener k).2
  | .requestAbort => e.requestAbort
  | .stop => e.stop

/-- The engine after one request after another. -/
def serveAll (e : Engine) (requests : List Request) : Engine := requests.foldl serve e

variable {e e' : Engine}

theorem start_of_stopped (h : e.stopped = true) : Pass.start e = .error .stopped := by
  have hrefusal : Pass.refusal? e = some .stopped := if_pos h
  rw [Pass.start_eq, hrefusal]

theorem evaluate_of_stopped (h : e.stopped = true) : e.evaluate = (.error .stopped, e) := by
  rw [evaluate, start_of_stopped h]

theorem addEvent_of_stopped (h : e.stopped = true) (stream : String) (v : Value) :
    e.addEvent stream v = .error .stopped := if_pos h

theorem send_of_closed (h : e.reactor.inbox.closed = true) (stream : String) (v : Value) :
    e.send stream v = .error .stopped := by
  have hinbox : e.reactor.inbox.send stream v = .error .stopped := if_pos h
  simp only [send, Reactor.send, hinbox]
  rfl

/-- An engine that stopped as `e`, and has been given another program since then or not. Nothing
waits, no stream has a reader, and what has been done so far is what `e` had done. -/
structure StoppedSince (e : Engine) (replaced : Bool) (e' : Engine) : Prop where
  stopped : e'.stopped = true
  closed : e'.reactor.inbox.closed = true
  waiting : e'.reactor.inbox.events = []
  unread : e'.reactor.registry.Unread
  streams : e'.reactor.registry.bare = e.reactor.registry.bare
  pass : e'.reactor.pass = e.reactor.pass
  latest : e'.latest = e.latest
  lastReport : e'.lastReport = e.lastReport
  heard : e'.heard = e.heard
  evaluations : e'.evaluations = if replaced then ∅ else e.evaluations

theorem stoppedSince_stop (e : Engine) : e.StoppedSince false e.stop where
  stopped := rfl
  closed := rfl
  waiting := rfl
  unread := Registry.unread_unsubscribeAll _
  streams := Registry.bare_unsubscribeAll _
  pass := rfl
  latest := rfl
  lastReport := rfl
  heard := rfl
  evaluations := rfl

namespace StoppedSince

variable {replaced : Bool} (h : e.StoppedSince replaced e')
include h

/-- Stopping again only does what has been done. -/
theorem stop : e.StoppedSince replaced e'.stop :=
  { h with
    stopped := rfl
    closed := rfl
    waiting := rfl
    unread := Registry.unread_unsubscribeAll _
    streams := (Registry.bare_unsubscribeAll _).trans h.streams }

/-- Whatever is forgotten, the readers stay unsubscribed. -/
theorem reset : e.StoppedSince replaced e'.reset := by
  have hreset : e'.reset = { e' with reactor := e'.reactor.invalidate } := by
    simp only [Engine.reset, h.stopped, if_true]
  rw [hreset]
  exact { h with
    unread := Registry.unread_unsubscribeAll _
    streams := (Registry.bare_unsubscribeAll _).trans h.streams }

theorem replaceTree (t : Tree) : e.StoppedSince true (e'.replaceTree t) := by
  have hnew : e.StoppedSince true { e' with program := .ofTree t, evaluations := ∅ } :=
    { h with evaluations := rfl }
  exact hnew.reset

theorem defineGlobal (name : String) (v : Value) :
    e.StoppedSince replaced (e'.defineGlobal name v) := by
  have hdefined : e.StoppedSince replaced
      { e' with scopes := e'.scopes.define e'.globals name v } := { h with }
  exact hdefined.reset

theorem setAvailable (stream : String) (available : Bool) :
    e.StoppedSince replaced ((e'.setAvailable stream available).toOption.getD e') := by
  cases hs : e'.setAvailable stream available with
  | error x => exact h
  | ok e'' =>
    obtain ⟨reactor, hr, rfl⟩ := setAvailable_eq_ok hs
    obtain ⟨readers, registry, hx, rfl⟩ := Reactor.setAvailable_eq_ok hr
    exact { h with
      unread := Registry.unread_setAvailable h.unread hx
      streams := (Registry.bare_setAvailable hx).trans h.streams }

/-- What one request leads to. -/
theorem serve (r : Request) : e.StoppedSince (replaced || r.replaces) (e'.serve r) := by
  have kept {e'' : Engine} (h : e.StoppedSince replaced e'') :
      e.StoppedSince (replaced || false) e'' := by rwa [Bool.or_false]
  cases r with
  | replaceTree t =>
    rw [Request.replaces, Bool.or_true]
    exact h.replaceTree t
  | send stream v =>
    rw [Engine.serve, sent, send_of_closed h.closed]
    exact kept h
  | addEvent stream v =>
    rw [Engine.serve, told, addEvent_of_stopped h.stopped]
    exact kept h
  | evaluate =>
    rw [Engine.serve, evaluate_of_stopped h.stopped]
    exact kept h
  | pass ticks =>
    rw [Engine.serve, start_of_stopped h.stopped]
    exact kept h
  | defineGlobal name v => exact kept (h.defineGlobal name v)
  | setAvailable stream available => exact kept (h.setAvailable stream available)
  | stop => exact kept h.stop
  | addListener | removeListener k | requestAbort => exact kept { h with }

/-- What a whole sequence of requests leads to. -/
theorem serveAll (requests : List Request) :
    e.StoppedSince (replaced || requests.any Request.replaces) (e'.serveAll requests) := by
  induction requests generalizing e' replaced with
  | nil =>
    rw [List.any_nil, Bool.or_false]
    exact h
  | cons r rest ih =>
    rw [List.any_cons, ← Bool.or_assoc]
    exact ih (h.serve r)

end StoppedSince

/-- Whatever an engine is asked after it has stopped, every event is refused, from whichever sender,
and so is every pass, and the engine stays as it is. Nothing waits and no stream has readers.
Passes, histories, the event log, the last value and the last report are those of the engine that
was stopped, and no listener has heard anything since. Nothing is evaluated; another program starts
all counts anew. -/
theorem stop_is_final (e : Engine) (requests : List Request) :
    let after := e.stop.serveAll requests
    (∀ stream v, after.send stream v = .error .stopped ∧
      after.addEvent stream v = .error .stopped) ∧
    Pass.start after = .error .stopped ∧ after.evaluate = (.error .stopped, after) ∧
    after.reactor.inbox.events = [] ∧ after.reactor.registry.readerCount = 0 ∧
    after.reactor.pass = e.reactor.pass ∧
    (∀ name, (after.reactor.registry.stream? name).map (·.history) =
      (e.reactor.registry.stream? name).map (·.history)) ∧
    after.eventLog = e.eventLog ∧ after.latest = e.latest ∧ after.lastReport = e.lastReport ∧
    after.heard = e.heard ∧
    ∀ i, after.evaluationCount i =
      if requests.any Request.replaces then 0 else e.evaluationCount i := by
  intro after
  have h : e.StoppedSince (requests.any Request.replaces) after :=
    (stoppedSince_stop e).serveAll requests
  refine ⟨fun stream v =>
      ⟨send_of_closed h.closed stream v, addEvent_of_stopped h.stopped stream v⟩,
    start_of_stopped h.stopped, evaluate_of_stopped h.stopped, h.waiting,
    Registry.readerCount_of_unread h.unread, h.pass, Registry.history_of_bare h.streams,
    Registry.eventLog_of_bare h.streams, h.latest, h.lastReport, h.heard, fun i => ?_⟩
  rw [evaluationCount, h.evaluations]
  split
  · simp
  · rfl

end Engine
end StreamLang
