import StreamLang.Proofs.Reuse.Between
import StreamLang.Proofs.Staleness.Least
import StreamLang.Proofs.Stream.Reordering
/-!
A reactor that has begun a pass and another one that has not, of which nothing has been committed: the
first has taken in some events that still wait in the second, and has marked what they lead to. They
stay in step whatever comes in, and when both begin a pass they are alike but for its number
(`Ahead.beginPass`).
-/
namespace StreamLang

open Staleness (Walked)

/-- What is sent goes after all that waits, however much that is. -/
theorem Inbox.send_waiting (b : Inbox) (more : List StreamEvent) (stream : String) (v : Value) :
    { b with events := more ++ b.events }.send stream v =
      (b.send stream v).map fun b => { b with events := more ++ b.events } := by
  unfold send
  cases b.closed with
  | true => rfl
  | false =>
    cases b.catalog.get? stream with
    | none => rfl
    | some spec =>
      cases hc : spec.check v with
      | error x => simp [hc, bind, Except.bind, Except.map]
      | ok u => simp [hc, bind, Except.bind, pure, Except.pure, Except.map]

theorem Registry.Subscribed.of_telling {t : Tree} {r r' : Registry} (h : r.Subscribed t)
    (same : ∀ name, r'.telling name = r.telling name) : r'.Subscribed t := by
  intro i k stream x' hk hstream hx'
  have ht := same stream
  rw [telling, telling, hx', Option.map_some] at ht
  obtain ⟨x, hx, heq⟩ := Option.map_eq_some_iff.1 ht.symm
  obtain ⟨-, hreaders⟩ := Prod.mk.inj heq
  exact hreaders ▸ h i k stream x hk hstream hx

namespace Reactor

variable {t : Tree} {left : NodeId → Prop} {taken : List StreamEvent} {a b r : Reactor}

theorem takeIn_eq (p : Program) (r : Reactor) (e : StreamEvent) : takeIn p r e =
    { r with
      registry := r.registry.takeIn e
      staleness := r.staleness.markAllChanged p (r.registry.heard e) } := by
  rw [Registry.takeIn_eq_record]
  unfold takeIn record Registry.heard
  cases r.registry.record e.stream e.value <;> rfl

theorem takeInAll_eq (p : Program) (events : List StreamEvent) (r : Reactor) :
    events.foldl (takeIn p) r =
      { r with
        registry := events.foldl Registry.takeIn r.registry
        staleness := r.staleness.markAllChanged p (events.flatMap r.registry.heard) } := by
  induction events generalizing r with
  | nil => rfl
  | cons e rest ih =>
    have heard : rest.flatMap (r.registry.takeIn e).heard = rest.flatMap r.registry.heard :=
      congrArg List.flatten (List.map_congr_left fun e' _ =>
        Registry.heard_congr (r.registry.telling_takeIn e _))
    rw [List.foldl_cons, takeIn_eq, ih, List.foldl_cons, List.flatMap_cons,
      Staleness.markAllChanged_append, heard]

/-- The reactor once a pass has begun. -/
theorem beginPass_eq (p : Program) (r : Reactor) : (r.beginPass p).2 =
    { r with
      registry := r.inbox.events.foldl Registry.takeIn r.registry
      inbox := { r.inbox with events := [] }
      staleness := r.staleness.markAllChanged p
        (r.inbox.events.flatMap r.registry.heard ++ r.edgeTriggered)
      edgeTriggered := []
      pass := r.pass + 1 } := by
  have h := takeInAll_eq p r.inbox.events { r with inbox := r.inbox.drain.2 }
  rw [Staleness.markAllChanged_append]
  simp only [beginPass, Inbox.drain] at h ⊢
  rw [h]

theorem snapshot_beginPass (p : Program) (r : Reactor) :
    (r.beginPass p).1 = (r.beginPass p).2.registry.snapshot (r.beginPass p).2.pass := rfl

/-- The reactor `a` has begun passes that `b` has not, and has taken in such events in them. -/
structure Ahead (t : Tree) (taken : List StreamEvent) (a b : Reactor) : Prop where
  inbox : b.inbox = { a.inbox with events := taken ++ a.inbox.events }
  registry : a.registry = taken.foldl Registry.takeIn b.registry
  staleness : a.staleness = b.staleness.markAllChanged (.ofTree t)
    (taken.flatMap b.registry.heard ++ b.edgeTriggered)
  edgeTriggered : a.edgeTriggered = []
  cache : a.cache = b.cache
  capacity : a.capacity = b.capacity
  pass : b.pass < a.pass

theorem ahead_beginPass (t : Tree) (r : Reactor) :
    Ahead t r.inbox.events (r.beginPass (.ofTree t)).2 r := by
  rw [beginPass_eq]
  exact ⟨by simp, rfl, rfl, rfl, rfl, rfl, Nat.lt_succ_self _⟩

namespace Ahead

variable (h : Ahead t taken a b)
include h

theorem telling (name : String) : a.registry.telling name = b.registry.telling name :=
  h.registry ▸ Registry.telling_takeInAll taken b.registry name

theorem heard (e : StreamEvent) : a.registry.heard e = b.registry.heard e :=
  Registry.heard_congr (h.telling e.stream)

/-- A pass that is dropped subscribes no one new. -/
theorem discard (hs : b.registry.Subscribed t) {done : Record}
    (known : ∀ x ∈ done.subscriptions, x ∈ (Analysis.ofTree t).readers) :
    a.discard done = a := by
  have hsame := Registry.subscribeAll_of_subscribed (hs.of_telling h.telling) known
  rw [Reactor.discard, applySubscriptions, hsame]

/-- An event is accepted by both or by none. -/
theorem send (stream : String) (v : Value) :
    (∃ x, a.send stream v = .error x ∧ b.send stream v = .error x) ∨
      ∃ a' b', a.send stream v = .ok a' ∧ b.send stream v = .ok b' ∧ Ahead t taken a' b' := by
  have hb := a.inbox.send_waiting taken stream v
  rw [← h.inbox] at hb
  unfold Reactor.send
  cases ha : a.inbox.send stream v with
  | error x =>
    rw [ha] at hb
    exact .inl ⟨x, rfl, by rw [hb]; rfl⟩
  | ok inbox =>
    rw [ha] at hb
    exact .inr ⟨{ a with inbox },
      { b with inbox := { inbox with events := taken ++ inbox.events } }, rfl, by rw [hb]; rfl,
      { h with inbox := rfl }⟩

/-- A stream is opened or closed for both or for none. -/
theorem setAvailable (o : t.Ordered) (hw : Walked t left b.staleness) (stream : String)
    (available : Bool) :
    (∃ x, a.setAvailable (.ofTree t) stream available = .error x ∧
      b.setAvailable (.ofTree t) stream available = .error x) ∨
    ∃ a' b', a.setAvailable (.ofTree t) stream available = .ok a' ∧
      b.setAvailable (.ofTree t) stream available = .ok b' ∧ Ahead t taken a' b' := by
  have hshown := Registry.stream?_takeInAll taken b.registry stream
  rw [← h.registry] at hshown
  unfold Reactor.setAvailable
  rw [Registry.setAvailable_eq, Registry.setAvailable_eq]
  cases hx : b.registry.stream? stream with
  | none =>
    rw [hx] at hshown
    rw [Option.map_eq_none_iff.1 hshown]
    exact .inl ⟨_, rfl, rfl⟩
  | some x =>
    rw [hx] at hshown
    obtain ⟨y, hy, heq⟩ := Option.map_eq_some_iff.1 hshown
    simp only [Prod.mk.injEq] at heq
    obtain ⟨havailable, -, hreaders⟩ := heq
    simp only [hy, havailable, hreaders]
    refine .inr ⟨_, _, rfl, rfl, { h with registry := ?_, staleness := ?_ }⟩
    · rw [h.registry]
      exact (Registry.takeInAll_switch taken b.registry stream available).symm
    · have heard : taken.flatMap (b.registry.switch stream available).heard =
          taken.flatMap b.registry.heard := congrArg List.flatten (List.map_congr_left fun e _ =>
        Registry.heard_congr (b.registry.telling_switch stream e.stream available))
      simp only [heard, h.staleness, ← Staleness.markAllChanged_append]
      exact Staleness.markAllChanged_congr o hw fun i => by
        simp only [List.mem_append]
        tauto

/-- When both begin a pass, only its number is different. -/
theorem beginPass (o : t.Ordered) (hw : Walked t left b.staleness) :
    (a.beginPass (.ofTree t)).2 = { (b.beginPass (.ofTree t)).2 with pass := a.pass + 1 } := by
  have heard : a.inbox.events.flatMap a.registry.heard =
      a.inbox.events.flatMap b.registry.heard :=
    congrArg List.flatten (List.map_congr_left fun e _ => h.heard e)
  have marks : a.staleness.markAllChanged (.ofTree t)
        (a.inbox.events.flatMap a.registry.heard ++ a.edgeTriggered) =
      b.staleness.markAllChanged (.ofTree t)
        (b.inbox.events.flatMap b.registry.heard ++ b.edgeTriggered) := by
    rw [heard, h.edgeTriggered, h.staleness, ← Staleness.markAllChanged_append, h.inbox]
    refine Staleness.markAllChanged_congr o hw fun i => ?_
    simp only [List.mem_append, List.flatMap_append, List.not_mem_nil, or_false]
    tauto
  have registry : a.inbox.events.foldl Registry.takeIn a.registry =
      b.inbox.events.foldl Registry.takeIn b.registry := by
    rw [h.registry, h.inbox, List.foldl_append]
  have inbox : { a.inbox with events := [] } = { b.inbox with events := [] } := by rw [h.inbox]
  rw [beginPass_eq, beginPass_eq, marks, registry, inbox, h.cache, h.capacity]

end Ahead
end Reactor
end StreamLang
