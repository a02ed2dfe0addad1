import StreamLang.Proofs.Engine.Delivery
/-!
A pass sees the streams as they were when it began. Events may be sent at any point while it is open,
and whatever they are, it goes on, ends, reports and commits as if nothing had been sent; those that
were accepted wait in order, and the next pass that begins records every one of them.
-/
namespace StreamLang

namespace Inbox

variable {b : Inbox}

/-- Whether an event is accepted from its sender. -/
def accepts (b : Inbox) (e : StreamEvent) : Bool := (b.send e.stream e.value).toOption.isSome

/-- The same inbox with other events in it. -/
def holding (b : Inbox) (events : List StreamEvent) : Inbox := { b with events }

/-- Only an inbox that is open accepts anything, and only what fits its stream. -/
theorem accepts_iff {e : StreamEvent} : b.accepts e = true ↔
    b.closed = false ∧ ∃ spec, b.catalog.get? e.stream = some spec ∧ spec.check e.value = .ok () := by
  unfold accepts send
  cases b.closed with
  | true => simp [Except.toOption]
  | false =>
    cases b.catalog.get? e.stream with
    | none => simp [Except.toOption]
    | some spec =>
      cases hc : spec.check e.value with
      | error x => simp [hc, bind, Except.bind, Except.toOption]
      | ok u => simp [hc, bind, Except.bind, pure, Except.pure, Except.toOption]

/-- What waits has no say in what is accepted. -/
theorem accepts_holding (b : Inbox) (events : List StreamEvent) :
    (b.holding events).accepts = b.accepts :=
  funext fun _ =>
    Bool.eq_iff_iff.2 ((accepts_iff (b := b.holding events)).trans (accepts_iff (b := b)).symm)

/-- What is accepted goes to the end, and what is refused leaves no trace. -/
theorem sent_eq (b : Inbox) (stream : String) (v : Value) :
    (b.send stream v).toOption.getD b =
      b.holding (b.events ++ if b.accepts ⟨stream, v⟩ then [⟨stream, v⟩] else []) := by
  cases h : b.send stream v with
  | error x =>
    have hr : b.accepts ⟨stream, v⟩ = false := by simp [accepts, h, Except.toOption]
    simp [hr, holding, Except.toOption]
  | ok b' =>
    have ha : b.accepts ⟨stream, v⟩ = true := by simp [accepts, h, Except.toOption]
    obtain ⟨-, rfl⟩ := send_eq_ok h
    simp [ha, holding, Except.toOption]

end Inbox

namespace Registry

/-- What a registry knows a stream by. -/
def spec? (r : Registry) (name : String) : Option StreamSpec := (r.stream? name).map (·.spec)

theorem SameEvents.spec? {r r' : Registry} (h : SameEvents r r') (name : String) :
    r'.spec? name = r.spec? name := by
  have hl := congrArg (Option.map (·.1)) (h.2 name)
  simpa [Registry.spec?, Stream.ledger, Function.comp_def] using hl

/-- Recording an event leaves all streams what they are. -/
theorem spec?_record {r r' : Registry} {stream : String} {v : Value} {recorded : Recorded}
    (h : r.record stream v = .ok (recorded, r')) (name : String) : r'.spec? name = r.spec? name := by
  obtain ⟨x, x', hx, hr, rfl⟩ := record_eq_ok h
  obtain ⟨-, version, origin, history, rfl⟩ := Stream.record_eq_ok hr
  show ((r.set stream { x with version, origin, history }).stream? name).map (·.spec) = _
  rw [stream?_set]
  split
  · subst name
    rw [spec?, hx]
    rfl
  · rfl

theorem spec?_takeIn (r : Registry) (e : StreamEvent) (name : String) :
    (r.takeIn e).spec? name = r.spec? name := by
  rw [takeIn_eq_record]
  cases hr : r.record e.stream e.value with
  | error x => rfl
  | ok found => exact spec?_record hr name

theorem spec?_takeInAll (events : List StreamEvent) (r : Registry) (name : String) :
    (events.foldl takeIn r).spec? name = r.spec? name := by
  induction events generalizing r with
  | nil => rfl
  | cons e rest ih => exact (ih _).trans (r.spec?_takeIn e name)

/-- Events that fit are all recorded. -/
theorem receipts_of_fit {events : List StreamEvent} {r : Registry}
    (fit : ∀ e ∈ events, ∃ spec, r.spec? e.stream = some spec ∧ spec.check e.value = .ok ()) :
    (r.receipts events).map (·.event) = events := by
  induction events generalizing r with
  | nil => rfl
  | cons e rest ih =>
    obtain ⟨spec, hspec, hv⟩ := fit e List.mem_cons_self
    obtain ⟨x, hx, rfl⟩ := Option.map_eq_some_iff.1 hspec
    obtain ⟨x', hx', -⟩ := Stream.exists_record hv r.sequence
    have hr : r.record e.stream e.value =
        .ok (⟨e.stream, x'.version, x'.readers⟩,
          { r.set e.stream x' with sequence := r.sequence + 1 }) := by
      simp only [record_eq, hx, hx']
      rfl
    rw [receipts, hr]
    refine congrArg (e :: ·) (ih fun e' he' => ?_)
    rw [spec?_record hr]
    exact fit e' (List.mem_cons_of_mem _ he')

end Registry

namespace Reactor

variable {r : Reactor}

/-- The inbox takes events for the streams that there are. -/
def Matched (r : Reactor) : Prop := ∀ name, r.registry.spec? name = r.inbox.catalog.get? name

/-- The same reactor with another inbox. -/
def withInbox (r : Reactor) (b : Inbox) : Reactor := { r with inbox := b }

theorem applyWrites_withInbox (r : Reactor) (b : Inbox) (pass : Nat)
    (writes : Assoc NodeId Write) :
    (r.withInbox b).applyWrites pass writes = (r.applyWrites pass writes).withInbox b := by
  induction writes generalizing r with
  | nil => rfl
  | cons x rest ih =>
    exact ih { r with
      cache := r.cache.put x.1 (entryOf pass x.2)
      staleness := r.staleness.markClean x.1 }

theorem evictOver_withInbox (r : Reactor) (b : Inbox) :
    (r.withInbox b).evictOver = r.evictOver.withInbox b := by
  obtain ⟨registry, inbox, staleness, cache, edgeTriggered, pass, _ | capacity⟩ := r <;> rfl

/-- A commit does not look at the inbox. -/
theorem commit_withInbox (r : Reactor) (b : Inbox) (t : Tree) (seen : Snapshot) (done : Record) :
    (r.withInbox b).commit t seen done = (r.commit t seen done).withInbox b := by
  simp only [commit, applyWrites_withInbox]
  exact evictOver_withInbox
    { r.applyWrites seen.pass done.writes with
      staleness := (done.cleaned.foldl (fun s i => s.cleanSubtree t i)
        (r.applyWrites seen.pass done.writes).staleness).promote
      edgeTriggered := done.edgeTriggered
      registry := ((r.applyWrites seen.pass done.writes).registry.subscribeAll
        done.subscriptions).markObserved seen } b

theorem beginPass_inbox (r : Reactor) (p : Program) :
    (r.beginPass p).2.inbox = r.inbox.holding [] :=
  (Tells.takeInAll_eq p r.inbox.events { r with inbox := r.inbox.drain.2 }).2

theorem beginPass_registry (r : Reactor) (p : Program) :
    (r.beginPass p).2.registry = r.inbox.events.foldl Registry.takeIn r.registry :=
  (Tells.takeInAll_eq p r.inbox.events { r with inbox := r.inbox.drain.2 }).1

namespace Matched

theorem same (h : r.Matched) {r' : Reactor} (hi : r'.inbox.catalog = r.inbox.catalog)
    (hs : Registry.SameEvents r.registry r'.registry) : r'.Matched := fun name => by
  rw [hs.spec?, hi, h name]

theorem beginPass (h : r.Matched) (p : Program) : (r.beginPass p).2.Matched := fun name => by
  rw [beginPass_registry, Registry.spec?_takeInAll, beginPass_inbox, h name]
  rfl

theorem discard (h : r.Matched) (done : Record) : (r.discard done).Matched :=
  h.same rfl (Registry.sameEvents_subscribeAll _ _)

theorem commit (h : r.Matched) (t : Tree) (seen : Snapshot) (done : Record) :
    (r.commit t seen done).Matched := by
  refine h.same (by rw [commit_inbox]) ?_
  rw [commit_registry]
  exact (Registry.sameEvents_subscribeAll _ _).trans (Registry.sameEvents_markObserved _ _)

/-- Events that the inbox accepts are recorded when they are taken in, one and all. -/
theorem receipts (h : r.Matched) {events : List StreamEvent}
    (ha : ∀ e ∈ events, r.inbox.accepts e = true) :
    (r.registry.receipts events).map (·.event) = events :=
  Registry.receipts_of_fit fun e he => by
    rw [h]
    exact (Inbox.accepts_iff.1 (ha e he)).2

end Matched
end Reactor

/-- Whatever happened in a session, inbox and streams fit each other. -/
theorem Stage.Reached.matched {s : Stage} (h : Reached (fun _ => True) (fun _ => True) s) :
    s.engine.reactor.Matched := by
  obtain ⟨l, hl⟩ := Chronicle.exists_iff.2 h
  obtain ⟨hs, -⟩ := hl.tells
  cases s with
  | idle e => exact hs.keeps.specs
  | busy before p => exact hs.1.keeps.specs

namespace Pass

/-- What can be done while a pass is open. -/
inductive Action where
  | tick
  /-- Some sender sends an event, which may be refused. -/
  | send (stream : String) (v : Value)
  | requestAbort

/-- The event that is sent, if one is. -/
def Action.event? : Action → Option StreamEvent
  | tick | requestAbort => none
  | send stream v => some ⟨stream, v⟩

def act (p : Pass) : Action → Pass
  | .tick => p.tick
  | .send stream v => { p with engine := p.engine.sent stream v }
  | .requestAbort => { p with engine := p.engine.requestAbort }

/-- The pass after all this, one thing after another. -/
def during (p : Pass) (actions : List Action) : Pass := actions.foldl act p

/-- The pass after all this but what is sent. -/
def alone (p : Pass) (actions : List Action) : Pass :=
  p.during (actions.filter (·.event?.isNone))

/-- What waits for the next pass. -/
def inbox (p : Pass) : Inbox := p.engine.reactor.inbox

/-- The same pass with another inbox. -/
def withInbox (p : Pass) (b : Inbox) : Pass :=
  { p with engine := { p.engine with reactor := p.engine.reactor.withInbox b } }

/-- The events that are accepted when they are sent, in order. -/
def accepted (p : Pass) : List Action → List StreamEvent
  | [] => []
  | .send stream v :: rest =>
    let now := if (p.engine.send stream v).toOption.isSome then [⟨stream, v⟩] else []
    now ++ (p.act (.send stream v)).accepted rest
  | .tick :: rest => (p.act .tick).accepted rest
  | .requestAbort :: rest => (p.act .requestAbort).accepted rest

variable {p : Pass} {actions : List Action}

theorem announce_withInbox (e : Engine) (b : Inbox) (report : Report) :
    ({ e with reactor := e.reactor.withInbox b }).announce report =
      { e.announce report with reactor := (e.announce report).reactor.withInbox b } := by
  unfold Engine.announce
  cases report.value <;> rfl

theorem conclude_withInbox (p : Pass) (b : Inbox) (T : Terminal) :
    (p.withInbox b).conclude T = (p.conclude T).withInbox b := by
  unfold conclude close
  cases T.value?.isSome with
  | false =>
    simp only [withInbox, Bool.false_eq_true, if_false]
    congr 1
    exact announce_withInbox (drop (p.engine.countEvaluations p.machine.record) p.machine.record)
      b _
  | true =>
    simp only [withInbox, if_true, commit]
    congr 1
    have hc := (p.engine.countEvaluations p.machine.record).reactor.commit_withInbox b
      p.engine.program.tree p.setting.snapshot p.machine.record
    simp only [Engine.countEvaluations] at hc ⊢
    rw [hc]
    exact announce_withInbox (p.commit (p.engine.countEvaluations p.machine.record)
      p.machine.record) b _

theorem abandon_withInbox (p : Pass) (b : Inbox) :
    (p.withInbox b).abandon = p.abandon.withInbox b := by
  have hf : (p.withInbox b).finished = p.finished := rfl
  unfold abandon
  rw [hf]
  cases p.finished <;> rfl

theorem settle_withInbox (p : Pass) (b : Inbox) :
    (p.withInbox b).settle = p.settle.withInbox b := by
  have hf : (p.withInbox b).finished = p.finished := rfl
  have hm : (p.withInbox b).machine = p.machine := rfl
  unfold settle
  rw [hf, hm]
  cases p.finished with
  | true => rfl
  | false =>
    cases p.machine.status with
    | running => rfl
    | ended T => exact conclude_withInbox p b T
    | broken fault => exact abandon_withInbox p b

/-- No tick looks at the inbox. -/
theorem tick_withInbox (p : Pass) (b : Inbox) : (p.withInbox b).tick = p.tick.withInbox b :=
  settle_withInbox { p with machine := p.machine.tick p.setting p.engine.abortRequested } b

theorem inbox_tick (p : Pass) : p.tick.inbox = p.inbox :=
  (congrArg inbox (tick_withInbox p p.inbox) :)

theorem inbox_abandon (p : Pass) : p.abandon.inbox = p.inbox :=
  (congrArg inbox (abandon_withInbox p p.inbox) :)

/-- Sending only puts something into the inbox. -/
theorem act_send (p : Pass) (stream : String) (v : Value) : p.act (.send stream v) =
    p.withInbox (p.inbox.holding
      (p.inbox.events ++ if p.inbox.accepts ⟨stream, v⟩ then [⟨stream, v⟩] else [])) := by
  rw [← Inbox.sent_eq, act, Engine.sent, Engine.send, Reactor.send, withInbox, inbox]
  cases p.engine.reactor.inbox.send stream v <;> rfl

theorem isSome_send (p : Pass) (stream : String) (v : Value) :
    (p.engine.send stream v).toOption.isSome = p.inbox.accepts ⟨stream, v⟩ := by
  rw [Engine.send, Reactor.send, Inbox.accepts, inbox]
  cases p.engine.reactor.inbox.send stream v <;> rfl

/-- The inbox answers all senders as it would have answered before the pass. -/
theorem accepted_eq (p : Pass) (actions : List Action) :
    p.accepted actions = (actions.filterMap (·.event?)).filter p.inbox.accepts := by
  induction actions generalizing p with
  | nil => rfl
  | cons a rest ih =>
    cases a with
    | tick =>
      rw [accepted, ih, act, inbox_tick]
      rfl
    | send stream v =>
      have hi : (p.act (.send stream v)).inbox.accepts = p.inbox.accepts := by
        rw [act_send]
        exact p.inbox.accepts_holding _
      rw [accepted, ih, hi, isSome_send]
      simp only [List.filterMap_cons, Action.event?, List.filter_cons]
      cases p.inbox.accepts ⟨stream, v⟩ <;> rfl
    | requestAbort => exact ih _

/-- As long as nothing is sent, nothing that is done looks at the inbox. -/
theorem alone_withInbox (p : Pass) (b : Inbox) (actions : List Action) :
    (p.withInbox b).alone actions = (p.alone actions).withInbox b := by
  induction actions generalizing p with
  | nil => rfl
  | cons a rest ih =>
    cases a with
    | tick =>
      show (p.withInbox b).tick.alone rest = _
      rw [tick_withInbox]
      exact ih p.tick
    | send stream v => exact ih p
    | requestAbort => exact ih { p with engine := p.engine.requestAbort }

/-- Whatever is sent in between, a pass goes on as if nothing were; what is accepted waits. -/
theorem during_eq (p : Pass) (actions : List Action) : p.during actions =
    (p.alone actions).withInbox (p.inbox.holding (p.inbox.events ++ p.accepted actions)) := by
  induction actions generalizing p with
  | nil =>
    rw [accepted, List.append_nil]
    rfl
  | cons a rest ih =>
    show (p.act a).during rest = _
    cases a with
    | tick =>
      rw [ih, act, inbox_tick]
      rfl
    | send stream v =>
      have hi : (p.act (.send stream v)).inbox.events ++ (p.act (.send stream v)).accepted rest =
          p.inbox.events ++ p.accepted (.send stream v :: rest) := by
        rw [accepted, isSome_send, ← List.append_assoc, act_send]
        rfl
      rw [ih, hi, act_send, alone_withInbox]
      rfl
    | requestAbort => exact ih _

theorem inbox_alone (p : Pass) (actions : List Action) : (p.alone actions).inbox = p.inbox :=
  (congrArg inbox (alone_withInbox p p.inbox actions) :)

/-! Nothing that is done to a pass lets inbox and streams drift apart. -/

section Matched

variable (h : p.engine.reactor.Matched)
include h

theorem matched_conclude (T : Terminal) : (p.conclude T).engine.reactor.Matched := by
  have announced {e : Engine} (he : e.reactor.Matched) (report : Report) :
      (e.announce report).reactor.Matched := (engine_announce e report).2.2.1 ▸ he
  unfold conclude close
  cases T.value?.isSome with
  | false => exact announced (h.discard _) _
  | true => exact announced (h.commit _ _ _) _

theorem matched_abandon : p.abandon.engine.reactor.Matched := by
  unfold abandon
  split
  · exact h
  · exact h.discard _

theorem matched_settle : p.settle.engine.reactor.Matched := by
  unfold settle
  split
  · exact h
  · split
    · exact h
    · exact matched_conclude h _
    · exact matched_abandon h

theorem matched_during (actions : List Action) : (p.during actions).engine.reactor.Matched := by
  induction actions generalizing p with
  | nil => exact h
  | cons a rest ih =>
    refine ih (p := p.act a) ?_
    cases a with
    | tick =>
      exact matched_settle
        (p := { p with machine := p.machine.tick p.setting p.engine.abortRequested }) h
    | send stream v =>
      rw [act_send]
      exact h
    | requestAbort => exact h

end Matched

/-- What becomes of a pass in which events are sent, next to the same pass in which none are. -/
structure Isolated (p : Pass) (actions : List Action) : Prop where
  /-- Nothing but the inbox tells that events were sent. The terminal, the report, the value of the
  root and everything else that a commit leaves behind are the same. -/
  same : p.during actions = (p.alone actions).withInbox (p.inbox.holding (p.accepted actions))
  /-- That is so too once the pass is over, or has been given up. -/
  left : (p.during actions).abandon =
    (p.alone actions).abandon.withInbox (p.inbox.holding (p.accepted actions))
  /-- Otherwise nothing would wait. -/
  quiet : (p.alone actions).abandon.inbox.events = []
  /-- What was accepted is all that waits, in order. -/
  waiting : (p.during actions).abandon.inbox.events = p.accepted actions
  /-- The next pass that begins takes in just that. -/
  begun : ∀ program, ((p.during actions).abandon.engine.reactor.beginPass program).2.registry =
    (p.accepted actions).foldl Registry.takeIn (p.during actions).abandon.engine.reactor.registry
  /-- None of it is refused then. -/
  recorded : ((p.during actions).abandon.engine.reactor.registry.receipts
    (p.accepted actions)).map (·.event) = p.accepted actions

/-- However sends and ticks are interleaved, a pass is isolated from what is sent while it is open. -/
theorem isolated {e : Engine} (hs : Pass.start e = .ok p) (hm : e.reactor.Matched)
    (actions : List Action) : p.Isolated actions := by
  obtain ⟨-, rfl⟩ := start_eq_ok hs
  have hempty : (opened e).inbox.events = [] :=
    congrArg Inbox.events (e.reactor.beginPass_inbox e.program)
  have same : (opened e).during actions = ((opened e).alone actions).withInbox
      ((opened e).inbox.holding ((opened e).accepted actions)) := by
    rw [during_eq, hempty, List.nil_append]
  have left := congrArg abandon same
  rw [abandon_withInbox] at left
  have waiting : ((opened e).during actions).abandon.inbox.events = (opened e).accepted actions := by
    rw [left]
    rfl
  refine ⟨same, left, ?_, waiting, fun program => ?_, ?_⟩
  · rw [inbox_abandon, inbox_alone, hempty]
  · rw [Reactor.beginPass_registry]
    exact congrArg (List.foldl Registry.takeIn _) waiting
  · have hnow := matched_abandon (matched_during (p := opened e) (hm.beginPass _) actions)
    refine hnow.receipts fun x hx => ?_
    have hi : ((opened e).during actions).abandon.inbox.accepts = (opened e).inbox.accepts := by
      rw [left]
      exact (opened e).inbox.accepts_holding _
    rw [accepted_eq] at hx
    rw [← inbox, hi]
    exact (List.mem_filter.1 hx).2

end Pass

/-! Two senders while a pass over the last key is open. One sends keys, the other one a boolean in
place of a key and an event of a stream that there is not. -/

namespace Typing

def draft : Draft := ⟨#[⟨.stream "keyboard", [], none, none⟩, ⟨.changed "keyboard", [], none, none⟩,
  ⟨.list, [0, 1], none, none⟩]⟩

def tree : Tree := ((draft.finish 2).toOption).getD ⟨#[], 0⟩

def catalog : Catalog := ⟨[("keyboard", ⟨"keyboard", .push, .text, .text ""⟩)]⟩

/-- The engine before its first pass. -/
def fresh : Engine := .load tree catalog .default

/-- What is done while the pass is open: keys come in at its start, in its middle and at its end. -/
def actions : List Pass.Action :=
  [.tick, .send "keyboard" (.text "a"), .tick, .tick, .send "keyboard" (.boolean true), .tick,
    .send "mouse" (.text "b"), .tick, .tick, .send "keyboard" (.text "c"), .tick, .tick,
    .tick, .tick, .tick, .send "keyboard" (.text "d")]

/-- The keys that come in. -/
def keys : List StreamEvent :=
  [⟨"keyboard", .text "a"⟩, ⟨"keyboard", .text "c"⟩, ⟨"keyboard", .text "d"⟩]

theorem start_fresh : Pass.start fresh = .ok (Pass.opened fresh) := Pass.start_eq_opened rfl rfl

theorem reached_fresh : Stage.Reached (fun _ => True) (fun _ => True) (.idle fresh) :=
  .new trivial (show Engine.new tree catalog .default = .ok fresh from rfl)

theorem matched_fresh : fresh.reactor.Matched := reached_fresh.matched

end Typing

/-- The pass ends as it would have, and the three keys wait. -/
theorem Pass.typing_isolated : Pass.start Typing.fresh = .ok (.opened Typing.fresh) ∧
    Typing.fresh.reactor.Matched ∧ (Pass.opened Typing.fresh).Isolated Typing.actions ∧
      ((Pass.opened Typing.fresh).during Typing.actions).finished = true ∧
      (Pass.opened Typing.fresh).accepted Typing.actions = Typing.keys :=
  ⟨Typing.start_fresh, Typing.matched_fresh,
    Pass.isolated Typing.start_fresh Typing.matched_fresh Typing.actions, by decide +kernel, rfl⟩

end StreamLang
