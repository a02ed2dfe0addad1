import Mathlib.Tactic.MkIffOfInductiveProp
import StreamLang.Proofs.Engine.Regular
import StreamLang.Proofs.Stream.Arrival
/-!
The order in which events of different streams come in makes no difference. An engine whose waiting
events are put in another order, with those of each stream as they were, answers every later call in
the same way. All that it holds is the same, but for the positions of events in the histories.
-/
namespace StreamLang

open StreamEvent (Rearranged)

/-- Two calls are refused for the same reason, or both succeed with results that are so related. -/
inductive Agree {ε α β : Type} (R : α → β → Prop) : Except ε α → Except ε β → Prop where
  | refused (x : ε) : Agree R (.error x) (.error x)
  | accepted {a : α} {b : β} (h : R a b) : Agree R (.ok a) (.ok b)

theorem Agree.map {ε α β γ δ : Type} {R : α → β → Prop} {S : γ → δ → Prop} {x : Except ε α}
    {y : Except ε β} {f : α → γ} {g : β → δ} (h : Agree R x y) (hS : ∀ a b, R a b → S (f a) (g b)) :
    Agree S (x.map f) (y.map g) := by
  cases h with
  | refused x => exact .refused x
  | accepted h => exact .accepted (hS _ _ h)

theorem Agree.of_map_eq {ε α β : Type} {f : α → β} {x y : Except ε α} (h : y.map f = x.map f) :
    Agree (fun a b => f b = f a) x y := by
  cases x with
  | error e =>
    cases y with
    | error e' =>
      obtain rfl := Except.error.inj h
      exact .refused _
    | ok b => cases h
  | ok a =>
    cases y with
    | error e' => cases h
    | ok b => exact .accepted (Except.ok.inj h)

namespace Reactor

/-- The reactor with other streams and other events waiting. -/
def holding (r : Reactor) (registry : Registry) (events : List StreamEvent) : Reactor :=
  { r with registry, inbox := { r.inbox with events } }

variable {r : Reactor} {registry : Registry} {events : List StreamEvent} {t : Tree}

theorem applyWrites_holding (r : Reactor) (pass : Nat) (writes : Assoc NodeId Write) :
    (r.holding registry events).applyWrites pass writes =
      (r.applyWrites pass writes).holding registry events := by
  induction writes generalizing r with
  | nil => rfl
  | cons p rest ih =>
    exact ih { r with cache := r.cache.put p.1 (entryOf pass p.2), staleness := r.staleness.markClean p.1 }

theorem evictOver_holding (r : Reactor) :
    (r.holding registry events).evictOver = r.evictOver.holding registry events := by
  cases hc : r.capacity <;> simp only [evictOver, holding, hc]

theorem commit_holding (r : Reactor) (t : Tree) (seen : Snapshot) (done : Record) :
    (r.holding registry events).commit t seen done = (r.commit t seen done).holding
      ((registry.subscribeAll done.subscriptions).markObserved seen) events := by
  unfold commit
  rw [applyWrites_holding, ← evictOver_holding]
  rfl

/-- A pass begins alike, however the events of different streams are arranged. -/
theorem beginPass_holding (o : t.Ordered) (h : r.Regular t)
    (hr : registry.unsequenced = r.registry.unsequenced) (he : Rearranged r.inbox.events events) :
    ((r.holding registry events).beginPass (.ofTree t)).1 = (r.beginPass (.ofTree t)).1 ∧
      ∃ taken : Registry, taken.unsequenced = (r.beginPass (.ofTree t)).2.registry.unsequenced ∧
        ((r.holding registry events).beginPass (.ofTree t)).2 =
          (r.beginPass (.ofTree t)).2.holding taken [] := by
  have taken := Registry.takeInAll_rearranged hr he
  have telling (name : String) : registry.telling name = r.registry.telling name := by
    rw [← registry.telling_unsequenced, hr, r.registry.telling_unsequenced]
  have heard (e : StreamEvent) : registry.heard e = r.registry.heard e :=
    Registry.heard_congr (telling e.stream)
  have marks : r.staleness.markAllChanged (.ofTree t)
        (events.flatMap registry.heard ++ r.edgeTriggered) =
      r.staleness.markAllChanged (.ofTree t)
        (r.inbox.events.flatMap r.registry.heard ++ r.edgeTriggered) :=
    Staleness.markAllChanged_congr o h.walked fun i => by
      simp only [List.mem_append, List.mem_flatMap, heard, he.mem_iff]
  have hbegun : ((r.holding registry events).beginPass (.ofTree t)).2 =
      (r.beginPass (.ofTree t)).2.holding (events.foldl Registry.takeIn registry) [] := by
    rw [beginPass_eq, beginPass_eq]
    simp only [holding, marks]
  have hregistry : (r.beginPass (.ofTree t)).2.registry =
      r.inbox.events.foldl Registry.takeIn r.registry := by rw [beginPass_eq]
  refine ⟨?_, _, hregistry ▸ taken, hbegun⟩
  rw [snapshot_beginPass, snapshot_beginPass, hbegun]
  show Registry.snapshot (events.foldl Registry.takeIn registry) _ = _
  rw [← Registry.snapshot_unsequenced, taken, hregistry, Registry.snapshot_unsequenced]
  rfl

end Reactor

namespace Engine

/-- The engine with other streams and other events waiting. -/
def holding (e : Engine) (registry : Registry) (events : List StreamEvent) : Engine :=
  { e with reactor := e.reactor.holding registry events }

/-- Two engines that differ in nothing but the order of the events of different streams: in that of
the waiting events, and in the positions of those that were taken in. -/
inductive Resembles (a : Engine) : Engine → Prop where
  | intro {registry events} (hr : registry.unsequenced = a.reactor.registry.unsequenced)
    (he : Rearranged a.reactor.inbox.events events) : Resembles a (a.holding registry events)

namespace Resembles

variable {a b : Engine} {t : Tree}

theorem refl (a : Engine) : a.Resembles a := .intro rfl (.refl _)

theorem eq_holding (h : a.Resembles b) : b = a.holding b.reactor.registry b.reactor.inbox.events := by
  obtain ⟨-, -⟩ := h
  rfl

theorem send (h : a.Resembles b) (stream : String) (v : Value) :
    Agree Resembles (a.send stream v) (b.send stream v) := by
  obtain @⟨registry, events, hr, he⟩ := h
  unfold Engine.send Reactor.send Inbox.send holding Reactor.holding
  cases a.reactor.inbox.closed with
  | true => exact .refused _
  | false =>
    simp only [Bool.false_eq_true, if_false]
    cases a.reactor.inbox.catalog.get? stream with
    | none => exact .refused _
    | some spec =>
      cases hc : spec.check v with
      | error x =>
        simp only [hc]
        exact .refused _
      | ok u =>
        simp only [hc]
        exact .accepted (.intro (a := { a with reactor := _ }) hr (he.append _))

theorem addEvent (h : a.Resembles b) (stream : String) (v : Value) :
    Agree Resembles (a.addEvent stream v) (b.addEvent stream v) := by
  have hstopped : b.stopped = a.stopped := by
    obtain ⟨-, -⟩ := h
    rfl
  unfold Engine.addEvent
  rw [hstopped]
  split
  · exact .refused _
  · exact h.send stream v

theorem setAvailable (h : a.Resembles b) (stream : String) (available : Bool) :
    Agree Resembles (a.setAvailable stream available) (b.setAvailable stream available) := by
  obtain @⟨registry, events, hr, he⟩ := h
  have hset := a.reactor.registry.setAvailable_unsequenced stream available
  rw [← hr, Registry.setAvailable_unsequenced] at hset
  have hagree := Agree.of_map_eq hset
  unfold Engine.setAvailable Reactor.setAvailable
  simp only [holding, Reactor.holding]
  generalize a.reactor.registry.setAvailable stream available = x at hagree ⊢
  generalize registry.setAvailable stream available = y at hagree ⊢
  cases hagree with
  | refused x => exact .refused x
  | @accepted told told' h =>
    obtain ⟨readers, registry⟩ := told
    obtain ⟨readers', registry'⟩ := told'
    obtain ⟨rfl, hregistry⟩ := Prod.mk.inj h
    exact .accepted (.intro (a := { a with reactor := _ }) hregistry he)

theorem reset (h : a.Resembles b) : a.reset.Resembles b.reset := by
  obtain @⟨registry, events, hr, he⟩ := h
  have unsubscribed : registry.unsubscribeAll.unsequenced =
      a.reactor.registry.unsubscribeAll.unsequenced := by
    rw [Registry.unsequenced_unsubscribeAll, hr, Registry.unsequenced_unsubscribeAll]
  cases hs : a.stopped with
  | true =>
    have hreset : a.reset = { a with reactor := a.reactor.invalidate } := by simp [Engine.reset, hs]
    have hreset' : (a.holding registry events).reset =
        { a with reactor := a.reactor.invalidate }.holding registry.unsubscribeAll events := by
      simp [Engine.reset, hs, holding, Reactor.holding, Reactor.invalidate]
    rw [hreset, hreset']
    exact .intro unsubscribed he
  | false =>
    let readers := a.program.analysis.readers
    have hreset : a.reset =
        { a with reactor := a.reactor.invalidate.subscribeReaders a.program.analysis } := by
      simp [Engine.reset, hs]
    have hreset' : (a.holding registry events).reset =
        { a with reactor := a.reactor.invalidate.subscribeReaders a.program.analysis }.holding
          (registry.unsubscribeAll.subscribeAll readers) events := by
      simp [Engine.reset, hs, holding, Reactor.holding, Reactor.invalidate, Reactor.subscribeReaders,
        readers]
    rw [hreset, hreset']
    refine .intro ?_ he
    rw [Registry.unsequenced_subscribeAll, unsubscribed]
    exact (Registry.unsequenced_subscribeAll _ _).symm

theorem defineGlobal (h : a.Resembles b) (name : String) (v : Value) :
    (a.defineGlobal name v).Resembles (b.defineGlobal name v) := by
  obtain @⟨registry, events, hr, he⟩ := h
  exact reset (.intro (a := { a with scopes := a.scopes.define a.globals name v }) hr he)

theorem replaceTree (h : a.Resembles b) (t : Tree) : (a.replaceTree t).Resembles (b.replaceTree t) := by
  obtain @⟨registry, events, hr, he⟩ := h
  exact reset (.intro (a := { a with program := .ofTree t, evaluations := ∅ }) hr he)

/-! ### The end of a pass -/

theorem countEvaluations (h : a.Resembles b) (done : Record) :
    (a.countEvaluations done).Resembles (b.countEvaluations done) := by
  obtain @⟨registry, events, hr, he⟩ := h
  exact .intro (a := a.countEvaluations done) hr he

theorem announce (h : a.Resembles b) (report : Report) :
    (a.announce report).Resembles (b.announce report) := by
  obtain @⟨registry, events, hr, he⟩ := h
  unfold Engine.announce
  cases report.value with
  | none => exact .intro (a := { a with lastReport := some report }) hr he
  | some v =>
    exact .intro (a := { a with
      latest := some v
      heard := a.heard ++ a.listeners.notices report
      lastReport := some report }) hr he

theorem drop (h : a.Resembles b) (done : Record) : (Pass.drop a done).Resembles (Pass.drop b done) := by
  obtain @⟨registry, events, hr, he⟩ := h
  refine @Resembles.intro (Pass.drop a done) (registry.subscribeAll done.subscriptions) _ ?_ he
  rw [Registry.unsequenced_subscribeAll, hr]
  exact (Registry.unsequenced_subscribeAll _ _).symm

theorem commit (h : a.Resembles b) (p : Pass) (done : Record) :
    (p.commit a done).Resembles (p.commit b done) := by
  obtain @⟨registry, events, hr, he⟩ := h
  have hcommit : p.commit (a.holding registry events) done = (p.commit a done).holding
      ((registry.subscribeAll done.subscriptions).markObserved p.setting.snapshot) events := by
    simp only [Pass.commit, holding, Reactor.commit_holding]
  rw [hcommit]
  refine .intro ?_ ?_
  · show _ = (a.reactor.commit _ _ _).registry.unsequenced
    rw [Reactor.commit_registry, Registry.unsequenced_markObserved, Registry.unsequenced_subscribeAll,
      hr, Registry.unsequenced_markObserved, Registry.unsequenced_subscribeAll]
  · show Rearranged (a.reactor.commit _ _ _).inbox.events events
    rw [Reactor.commit_inbox]
    exact he

end Resembles
end Engine

namespace Pass

/-- Two passes that are the same on engines that resemble each other. -/
inductive Resembles (p : Pass) : Pass → Prop where
  | intro {e} (h : p.engine.Resembles e) : Resembles p { p with engine := e }

namespace Resembles

variable {p q : Pass} {a b : Engine} {t : Tree}

theorem close (h : p.Resembles q) {settle settle' : Engine → Record → Engine}
    (hs : ∀ a b done, a.Resembles b → (settle a done).Resembles (settle' b done)) :
    (p.close settle).Resembles (q.close settle') := by
  obtain ⟨h⟩ := h
  exact .intro (p := p.close settle) (hs _ _ _ (h.countEvaluations _))

theorem conclude (h : p.Resembles q) (T : Terminal) : (p.conclude T).Resembles (q.conclude T) := by
  refine h.close fun a b done hab => ?_
  obtain ⟨-⟩ := h
  refine Engine.Resembles.announce ?_ _
  split
  · exact hab.commit p done
  · exact hab.drop done

theorem abandon (h : p.Resembles q) : p.abandon.Resembles q.abandon := by
  have hclose : (p.close drop).Resembles (q.close drop) := h.close fun _ _ done hab => hab.drop done
  have hfinished : q.finished = p.finished := by
    obtain ⟨-⟩ := h
    rfl
  unfold Pass.abandon
  rw [hfinished]
  split
  · exact h
  · exact hclose

theorem settle (h : p.Resembles q) : p.settle.Resembles q.settle := by
  have hconclude := h.conclude
  have habandon := h.abandon
  have hfinished : q.finished = p.finished ∧ q.machine = p.machine := by
    obtain ⟨-⟩ := h
    exact ⟨rfl, rfl⟩
  unfold Pass.settle
  rw [hfinished.1, hfinished.2]
  split
  · exact h
  · split
    · exact h
    · exact hconclude _
    · exact habandon

theorem tick (h : p.Resembles q) : p.tick.Resembles q.tick := by
  obtain @⟨_, @⟨registry, events, hr, he⟩⟩ := h
  exact settle (.intro
    (p := { p with machine := p.machine.tick p.setting p.engine.abortRequested }) (.intro hr he))

theorem requestAbort (h : p.Resembles q) :
    Resembles { p with engine := p.engine.requestAbort } { q with engine := q.engine.requestAbort } := by
  obtain @⟨_, @⟨registry, events, hr, he⟩⟩ := h
  exact .intro (p := { p with engine := p.engine.requestAbort })
    (.intro (a := p.engine.requestAbort) hr he)

theorem engine (h : p.Resembles q) : p.engine.Resembles q.engine := by
  obtain ⟨h⟩ := h
  exact h

/-- A pass is opened on both engines or on none. -/
theorem start (h : a.Resembles b) (ha : a.Regular t) :
    Agree Resembles (Pass.start a) (Pass.start b) := by
  obtain @⟨registry, events, hr, he⟩ := h
  have hrefusal : refusal? (a.holding registry events) = refusal? a := rfl
  rw [start_eq, start_eq, hrefusal]
  cases refusal? a with
  | some x => exact .refused x
  | none =>
    obtain ⟨hsnapshot, taken, htaken, hbegun⟩ := Reactor.beginPass_holding ha.ordered ha.reactor hr he
    rw [← ha.program] at hsnapshot htaken hbegun
    have hopened : opened (a.holding registry events) =
        { opened a with engine := (opened a).engine.holding taken [] } := by
      simp only [opened, Engine.holding]
      rw [hsnapshot, hbegun]
      rfl
    refine .accepted (hopened ▸ .intro (.intro htaken ?_))
    show Rearranged (a.reactor.beginPass a.program).2.inbox.events []
    rw [Reactor.beginPass_eq]
    exact .refl []

end Resembles
end Pass

namespace Stage

/-- A call that somebody makes, to an engine between its passes or to a pass. -/
inductive Call (admits : Tree → Prop) where
  | addEvent (stream : String) (v : Value)
  | setAvailable (stream : String) (available : Bool)
  | defineGlobal (name : String) (v : Value)
  | replaceTree (t : Tree) (h : admits t)
  | start
  | tick
  | sendDuring (stream : String) (v : Value)
  | requestAbort
  | leave

variable {admits : Tree → Prop} {fair : Pass → Prop} {s s' : Stage} {c : Call admits} {e : Engine}

/-- What a call leads to. A call to a pass does nothing between passes, nor does one to the engine
during a pass. -/
def call : Stage → Call admits → Except Error Stage
  | idle e, .addEvent stream v => (e.addEvent stream v).map idle
  | idle e, .setAvailable stream available => (e.setAvailable stream available).map idle
  | idle e, .defineGlobal name v => .ok (idle (e.defineGlobal name v))
  | idle e, .replaceTree t _ => .ok (idle (e.replaceTree t))
  | idle e, .start => (Pass.start e).map (busy e)
  | busy e p, .tick => .ok (busy e p.tick)
  | busy e p, .sendDuring stream v =>
    (p.engine.send stream v).map fun engine => busy e { p with engine }
  | busy e p, .requestAbort => .ok (busy e { p with engine := p.engine.requestAbort })
  | busy _ p, .leave => .ok (idle p.abandon.engine)
  | s, _ => .ok s

/-- The stage after a call. A refused call leaves everything as it is. -/
def after (s : Stage) (c : Call admits) : Stage := (s.call c).toOption.getD s

/-- The stage after one call after another. -/
def calls (s : Stage) (cs : List (Call admits)) : Stage := cs.foldl after s

/-- Two stages in engines that resemble each other. -/
inductive Resembles : Stage → Stage → Prop where
  | idle {a b} (h : a.Resembles b) : Resembles (idle a) (idle b)
  | busy {a b p q} (h : p.Resembles q) : Resembles (busy a p) (busy b q)

theorem Resembles.engine (h : s.Resembles s') : s.engine.Resembles s'.engine := by
  cases h with
  | idle h => exact h
  | busy h => exact Pass.Resembles.engine h

/-- What a call leads to is a step, or nothing at all. -/
theorem step_of_call (h : s.call c = .ok s') : s' = s ∨ Step admits (fun _ => True) s s' := by
  have map {α : Type} {x : Except Error α} {f : α → Stage} (h : x.map f = .ok s') :
      ∃ y, x = .ok y ∧ f y = s' := by
    cases x with
    | error e => cases h
    | ok y => exact ⟨y, rfl, Except.ok.inj h⟩
  cases s with
  | idle e =>
    cases c with
    | addEvent stream v =>
      obtain ⟨e', he, rfl⟩ := map h
      exact .inr (.addEvent he)
    | setAvailable stream available =>
      obtain ⟨e', he, rfl⟩ := map h
      exact .inr (.setAvailable he)
    | defineGlobal name v =>
      obtain rfl := Except.ok.inj h
      exact .inr (.defineGlobal name v)
    | replaceTree t ht =>
      obtain rfl := Except.ok.inj h
      exact .inr (.replaceTree ht)
    | start =>
      obtain ⟨p, hp, rfl⟩ := map h
      exact .inr (.start hp)
    | _ => exact .inl (Except.ok.inj h).symm
  | busy e p =>
    cases c with
    | tick =>
      obtain rfl := Except.ok.inj h
      exact .inr (.tick trivial)
    | sendDuring stream v =>
      obtain ⟨e', he, rfl⟩ := map h
      exact .inr (.sendDuring he)
    | requestAbort =>
      obtain rfl := Except.ok.inj h
      exact .inr .requestAbort
    | leave =>
      obtain rfl := Except.ok.inj h
      exact .inr .leave
    | _ => exact .inl (Except.ok.inj h).symm

theorem Reached.calls (h : Reached admits (fun _ => True) s) (cs : List (Call admits)) :
    Reached admits (fun _ => True) (s.calls cs) := by
  induction cs generalizing s with
  | nil => exact h
  | cons c rest ih =>
    have hnext : Reached admits (fun _ => True) (s.after c) := by
      unfold after
      cases hc : s.call c with
      | error x => exact h
      | ok s' =>
        rcases step_of_call hc with rfl | hs
        · exact h
        · exact h.step hs
    exact ih hnext

/-- Whatever is called, two stages that resemble each other answer alike. -/
theorem Resembles.call (h : s.Resembles s') (hs : s.Regular) (c : Call admits) :
    Agree Resembles (s.call c) (s'.call c) := by
  cases h with
  | @idle a b h =>
    obtain ⟨t, ha⟩ := hs
    cases c with
    | addEvent stream v => exact (h.addEvent stream v).map fun _ _ => .idle
    | setAvailable stream available => exact (h.setAvailable stream available).map fun _ _ => .idle
    | defineGlobal name v => exact .accepted (.idle (h.defineGlobal name v))
    | replaceTree t _ => exact .accepted (.idle (h.replaceTree t))
    | start => exact (Pass.Resembles.start h ha).map fun _ _ => .busy
    | _ => exact .accepted (.idle h)
  | @busy a b p q h =>
    cases c with
    | tick => exact .accepted (.busy h.tick)
    | sendDuring stream v =>
      obtain ⟨h⟩ := h
      exact (h.send stream v).map fun _ _ h => .busy (.intro h)
    | requestAbort => exact .accepted (.busy h.requestAbort)
    | leave => exact .accepted (.idle h.abandon.engine)
    | _ => exact .accepted (.busy h)

theorem Resembles.calls (h : s.Resembles s') (hs : Reached Tree.Accepted (fun _ => True) s)
    (cs : List (Call Tree.Accepted)) : (s.calls cs).Resembles (s'.calls cs) := by
  induction cs generalizing s s' with
  | nil => exact h
  | cons c rest ih =>
    have hnext : (s.after c).Resembles (s'.after c) := by
      have hagree := h.call hs.regular c
      unfold after
      generalize s.call c = x at hagree ⊢
      generalize s'.call c = y at hagree ⊢
      cases hagree with
      | refused x => exact h
      | accepted h => exact h
    exact ih hnext (hs.calls [c])

/-- Let the events that wait in an engine be put in another order, with those of each stream as they
were. A pass that begins takes them in with the same snapshot and the same marks; and whatever is
called one after another, through any number of passes, every call is answered in the same way and
leads to the same state, but for the positions of events among those of all streams. -/
theorem Reached.batches_commute (h : Reached Tree.Accepted (fun _ => True) (idle e))
    {events : List StreamEvent} (he : Rearranged e.reactor.inbox.events events) :
    let e' := e.holding e.reactor.registry events
    let begun := e.reactor.beginPass e.program
    let begun' := e'.reactor.beginPass e'.program
    begun'.1 = begun.1 ∧ begun'.2.staleness = begun.2.staleness ∧
      begun'.2.registry.unsequenced = begun.2.registry.unsequenced ∧
      ∀ (cs : List (Call Tree.Accepted)) (c : Call Tree.Accepted),
        Agree Resembles (((idle e).calls cs).call c) (((idle e').calls cs).call c) := by
  intro e' begun begun'
  obtain ⟨t, hr⟩ := h.regular
  have hsame : e.reactor.registry.unsequenced = e.reactor.registry.unsequenced := rfl
  obtain ⟨hsnapshot, taken, htaken, hbegun⟩ :=
    Reactor.beginPass_holding hr.ordered hr.reactor hsame he
  rw [← hr.program] at hsnapshot htaken hbegun
  have hbegun : begun'.2 = begun.2.holding taken [] := hbegun
  have hresembles : (idle e).Resembles (idle e') := .idle (.intro rfl he)
  exact ⟨hsnapshot, by rw [hbegun]; rfl, by rw [hbegun]; exact htaken,
    fun cs c => (hresembles.calls h cs).call (h.calls cs).regular c⟩

end Stage

/-! A program that shows the last key and whether a button is down. Both come at once. -/

namespace Chord

def draft : Draft :=
  ⟨#[⟨.stream "keyboard", [], none, none⟩, ⟨.stream "button", [], none, none⟩,
    ⟨.list, [0, 1], none, none⟩]⟩

def tree : Tree := ((draft.finish 2).toOption).getD ⟨#[], 0⟩

def catalog : Catalog :=
  ⟨[("keyboard", ⟨"keyboard", .push, .text, .text ""⟩),
    ("button", ⟨"button", .push, .boolean, .boolean false⟩)]⟩

def fresh : Engine := .load tree catalog .default

/-- Before its first pass, after a key, the button and another key. -/
def pressed : Engine :=
  ((fresh.told "keyboard" (.text "j")).told "button" (.boolean true)).told "keyboard" (.text "k")

/-- The button and both keys. -/
def rearranged : List StreamEvent :=
  [⟨"button", .boolean true⟩, ⟨"keyboard", .text "j"⟩, ⟨"keyboard", .text "k"⟩]

/-- The same engine with the button first. -/
def pressed' : Engine := pressed.holding pressed.reactor.registry rearranged

/-- A whole pass. -/
def pass : List (Stage.Call Tree.Accepted) := .start :: List.replicate 16 .tick

def leave : Stage.Call Tree.Accepted := .leave

/-- Where the button stands among all events. -/
def positions (s : Stage) : Option (List Nat) :=
  (s.engine.reactor.registry.stream? "button").map (·.history.map (·.sequence))

/-- What can be read off the program and its pass. -/
@[mk_iff]
structure Checked : Prop where
  built : draft.finish 2 = .ok tree
  first : (fresh.addEvent "keyboard" (.text "j")).toOption.isSome
  second : ((fresh.told "keyboard" (.text "j")).addEvent "button" (.boolean true)).toOption.isSome
  third : (((fresh.told "keyboard" (.text "j")).told "button" (.boolean true)).addEvent "keyboard"
    (.text "k")).toOption.isSome
  ends : (((Stage.idle pressed).calls pass).call leave).toOption.any fun s =>
    s.engine.latest.any (·.equal (.list [.text "k", .boolean true])) && positions s == some [1]
  ends' : (((Stage.idle pressed').calls pass).call leave).toOption.any fun s =>
    positions s == some [0]

theorem checked : Checked := checked_iff.2 (by decide +kernel)

theorem reached : Stage.Reached Tree.Accepted (fun _ => True) (.idle pressed) := by
  have hnew : Engine.new tree catalog .default = .ok fresh := rfl
  have new : Stage.Reached Tree.Accepted (fun _ => True) (.idle fresh) :=
    .new ⟨draft, 2, checked.built⟩ hnew
  exact ((new.told _ _ checked.first).told _ _ checked.second).told _ _ checked.third

end Chord

/-- Whether the button comes between the keys or before them, the pass shows it and the last key, and
only its position is another. -/
theorem Stage.Reached.chord_commutes : Rearranged Chord.pressed.reactor.inbox.events Chord.rearranged ∧
    ∃ s s', ((idle Chord.pressed).calls Chord.pass).call Chord.leave = .ok s ∧
      ((idle Chord.pressed').calls Chord.pass).call Chord.leave = .ok s' ∧ s.Resembles s' ∧
      Chord.positions s = some [1] ∧ Chord.positions s' = some [0] ∧
      ∃ v, s.engine.latest = some v ∧ s'.engine.latest = some v ∧
        v.equal (.list [.text "k", .boolean true]) = true := by
  have hevents : Chord.pressed.reactor.inbox.events =
      [⟨"keyboard", .text "j"⟩, ⟨"button", .boolean true⟩, ⟨"keyboard", .text "k"⟩] := rfl
  have hrearranged : Rearranged Chord.pressed.reactor.inbox.events Chord.rearranged := fun stream => by
    rw [hevents]
    by_cases hk : "keyboard" = stream
    · subst hk
      rfl
    · simp [Chord.rearranged, List.filter_cons, hk]
  obtain ⟨-, -, -, hcalls⟩ := batches_commute Chord.reached hrearranged
  have hagree := hcalls Chord.pass Chord.leave
  obtain ⟨s, hs, hends⟩ := (Option.any_eq_true _ _).1 Chord.checked.ends
  obtain ⟨s', hs', hends'⟩ := (Option.any_eq_true _ _).1 Chord.checked.ends'
  obtain ⟨hlatest, hposition⟩ := (Bool.and_eq_true ..).mp hends
  obtain ⟨v, hv, heq⟩ := (Option.any_eq_true _ _).1 hlatest
  have hs := eq_ok_of_toOption hs
  have hs' := eq_ok_of_toOption hs'
  have h : s.Resembles s' := by
    rw [hs] at hagree
    change Agree _ _ (((idle Chord.pressed').calls Chord.pass).call Chord.leave) at hagree
    rw [hs'] at hagree
    cases hagree with
    | accepted h => exact h
  have hlatest' : s'.engine.latest = some v := by
    rw [h.engine.eq_holding]
    exact hv
  exact ⟨hrearranged, s, s', hs, hs', h, beq_iff_eq.1 hposition, beq_iff_eq.1 hends', v, hv,
    hlatest', heq⟩

end StreamLang
