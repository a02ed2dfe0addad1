import Mathlib.Tactic.MkIffOfInductiveProp
import StreamLang.Proofs.Engine.Regular
import StreamLang.Proofs.Machine.Subscriptions
/-!
A pass that does not commit leaves no trace. Compare an engine on which a pass was attempted with the
same engine without that pass. The first is ahead, as it has taken in events that still wait in the
second; whatever comes in, they stay in step, and when both are evaluated they give the same value
and end alike, but for the numbers of passes.
-/
namespace StreamLang

open Machine

/-! ### Runs and the number of the pass -/

/-- The same setting, if the pass had another number. -/
def Setting.renumber (s : Setting) (pass : Nat) : Setting :=
  { s with snapshot := { s.snapshot with pass } }

theorem Machine.tick_renumber (s : Setting) (pass : Nat) (abort : Bool) (m : Machine) :
    m.tick (s.renumber pass) abort = m.tick s abort := rfl

/-- No run depends on the number of its pass. -/
theorem Machine.run_renumber (s : Setting) (pass : Nat) (abort : Bool) (m : Machine) (n : Nat) :
    m.run (s.renumber pass) abort n = m.run s abort n := by
  induction n generalizing m with
  | zero => rfl
  | succ n ih => rw [run_succ, run_succ, tick_renumber, ih]

/-- Nodes subscribe only to streams that they read. -/
theorem Machine.Listening.readers {s : Setting} {m : Machine} (h : m.Listening s) {t : Tree}
    (hp : s.program = .ofTree t) :
    ∀ x ∈ m.record.subscriptions, x ∈ (Analysis.ofTree t).readers := fun x hx => by
  have hx := h.subscriptions x hx
  rw [hp] at hx
  exact Analysis.mem_readers.2 hx

theorem Pass.Open.listening {p : Pass} {before : Engine} {P : NodeId → Value → Prop}
    (o : p.Open before P) : p.machine.Listening p.setting := by
  obtain ⟨k, hk, -⟩ := o.machine
  exact hk ▸ (Listening.invariant _).run (Listening.start p.setting before.scopes) false k

/-- A report, whatever the number of its pass. -/
def Report.unnumbered (r : Report) : Report := { r with pass := 0 }

/-! ### What comes in between passes -/

/-- What can come to an engine between passes. -/
inductive Input where
  | event (stream : String) (v : Value)
  | availability (stream : String) (available : Bool)

namespace Engine

def accept (e : Engine) : Input → Except Error Engine
  | .event stream v => e.addEvent stream v
  | .availability stream available => e.setAvailable stream available

/-- One thing comes in after another; what is refused leaves no trace. -/
def feed (e : Engine) (inputs : List Input) : Engine :=
  inputs.foldl (fun e i => (e.accept i).toOption.getD e) e

/-- A pass on the engine that has committed nothing so far, with the events that came in while it was
open. -/
inductive Attempt (e : Engine) : List Input → Pass → Prop where
  | start {p} (h : Pass.start e = .ok p) : Attempt e [] p
  | tick {l p} (h : Attempt e l p) (hc : p.commits = false) : Attempt e l p.tick
  | sendDuring {l p e' stream v} (h : Attempt e l p) (hs : p.engine.send stream v = .ok e') :
    Attempt e (l ++ [.event stream v]) { p with engine := e' }
  | requestAbort {l p} (h : Attempt e l p) :
    Attempt e l { p with engine := p.engine.requestAbort }

/-- The engine `a` has attempted passes that `b` has not: it has taken in such events, and its
listeners have heard such news. -/
structure Ahead (t : Tree) (taken : List StreamEvent) (missed : List (Nat × Report))
    (a b : Engine) : Prop where
  alike : b.Alike a
  scopes : a.scopes = b.scopes
  listeners : a.listeners = b.listeners
  heard : a.heard = b.heard ++ missed
  reactor : a.reactor.Ahead t taken b.reactor

variable {t : Tree} {taken : List StreamEvent} {missed : List (Nat × Report)} {a b e : Engine}
  {p : Pass} {l inputs : List Input}

theorem addEvent_eq (hs : e.stopped = false) (stream : String) (v : Value) :
    e.addEvent stream v = (e.reactor.send stream v).map fun reactor => { e with reactor } := by
  rw [addEvent, if_neg (by simp [hs]), send]
  cases e.reactor.send stream v <;> rfl

theorem setAvailable_eq {program : Program} (hp : e.program = program) (stream : String)
    (available : Bool) : e.setAvailable stream available =
      (e.reactor.setAvailable program stream available).map fun reactor => { e with reactor } := by
  subst hp
  rw [setAvailable]
  cases e.reactor.setAvailable e.program stream available <;> rfl

theorem feed_append (e : Engine) (xs ys : List Input) : e.feed (xs ++ ys) = (e.feed xs).feed ys :=
  List.foldl_append

namespace Regular

theorem accept (h : e.Regular t) (i : Input) : ((e.accept i).toOption.getD e).Regular t := by
  cases ha : e.accept i with
  | error x => exact h
  | ok e' =>
    cases i with
    | event stream v => exact h.addEvent ha
    | availability stream available => exact h.setAvailable ha

theorem feed (h : e.Regular t) (inputs : List Input) : (e.feed inputs).Regular t := by
  induction inputs generalizing e with
  | nil => exact h
  | cons i rest ih => exact ih (h.accept i)

end Regular

namespace Ahead

variable (h : Ahead t taken missed a b)
include h

theorem discard (hb : b.Regular t) {done : Record}
    (known : ∀ x ∈ done.subscriptions, x ∈ (Analysis.ofTree t).readers) :
    a.reactor.discard done = a.reactor :=
  h.reactor.discard hb.reactor.subscribed known

/-- Whatever comes in, both accept it or both refuse it. -/
theorem accept (hb : b.Regular t) (i : Input) :
    Ahead t taken missed ((a.accept i).toOption.getD a) ((b.accept i).toOption.getD b) := by
  have hrunning : a.stopped = false := h.alike.stopped.trans hb.running
  have hprogram : a.program = .ofTree t := h.alike.program.trans hb.program
  have keep {ra rb : Reactor} (hr : ra.Ahead t taken rb) :
      Ahead t taken missed { a with reactor := ra } { b with reactor := rb } :=
    { h with alike := { h.alike with }, reactor := hr }
  cases i with
  | event stream v =>
    simp only [Engine.accept, addEvent_eq hrunning, addEvent_eq hb.running]
    rcases h.reactor.send stream v with ⟨x, hx, hy⟩ | ⟨ra, rb, hx, hy, hr⟩
    · rw [hx, hy]
      exact h
    · rw [hx, hy]
      exact keep hr
  | availability stream available =>
    simp only [Engine.accept, setAvailable_eq hprogram, setAvailable_eq hb.program]
    rcases h.reactor.setAvailable hb.ordered hb.reactor.walked stream available with
      ⟨x, hx, hy⟩ | ⟨ra, rb, hx, hy, hr⟩
    · rw [hx, hy]
      exact h
    · rw [hx, hy]
      exact keep hr

theorem feed (hb : b.Regular t) (inputs : List Input) :
    Ahead t taken missed (a.feed inputs) (b.feed inputs) := by
  induction inputs generalizing a b with
  | nil => exact h
  | cons i rest ih => exact ih (h.accept hb i) (hb.accept i)

end Ahead

theorem heard_accept (e : Engine) (i : Input) : ((e.accept i).toOption.getD e).heard = e.heard := by
  cases ha : e.accept i with
  | error x => rfl
  | ok e' =>
    cases i with
    | event stream v =>
      simp only [accept, addEvent] at ha
      split at ha
      · cases ha
      · obtain ⟨inbox, -, rfl⟩ := inbox_of_send ha
        rfl
    | availability stream available =>
      obtain ⟨r, -, rfl⟩ := setAvailable_eq_ok ha
      rfl

theorem heard_feed (e : Engine) (inputs : List Input) : (e.feed inputs).heard = e.heard := by
  induction inputs generalizing e with
  | nil => rfl
  | cons i rest ih => exact (ih _).trans (heard_accept e i)

/-- While a pass is attempted, its engine is ahead, and nothing is heard of it unless it exceeds its
budget. -/
structure Attempted (t : Tree) (e : Engine) (l : List Input) (p : Pass) : Prop where
  ahead : ∃ missed, Ahead t e.reactor.inbox.events missed p.engine (e.feed l) ∧
    (p.machine.status ≠ .ended .budgetExceeded → missed = [])
  life : p.Open e (fun _ _ => True) ∧ p.setting.program = .ofTree t ∨ p.Settled

theorem Regular.attempted (h : e.Regular t) (ha : e.Attempt l p) : Attempted t e l p := by
  induction ha with
  | start hs =>
    obtain ⟨-, rfl⟩ := Pass.start_eq_ok hs
    refine ⟨⟨[], ⟨⟨rfl, rfl, rfl, rfl⟩, rfl, rfl, (List.append_nil _).symm, ?_⟩, fun _ => rfl⟩,
      .inl ⟨Pass.open_opened e, h.program⟩⟩
    have hr := Reactor.ahead_beginPass t e.reactor
    rw [← h.program] at hr
    exact hr
  | @tick l p ha hc ih =>
    obtain ⟨⟨missed, hahead, hmissed⟩, ⟨o, hp⟩ | hp⟩ := ih
    · obtain ⟨hsetting, ⟨ho, he⟩ | ⟨hq, hd | ⟨k, v, hcommit⟩⟩⟩ := o.tick fun _ _ _ => trivial
      · refine ⟨⟨missed, he ▸ hahead, fun _ => hmissed ?_⟩, .inl ⟨ho, hsetting ▸ hp⟩⟩
        intro hs
        simpa [Machine.isRunning, hs] using o.isRunning
      · obtain rfl := hmissed fun hs => by simpa [Machine.isRunning, hs] using o.isRunning
        obtain ⟨news, hheard, hnews⟩ := hd.heard
        have hlistening : p.next.Listening p.setting :=
          (Listening.invariant _).tick o.listening p.engine.abortRequested
        refine ⟨⟨news, ⟨hahead.alike.trans hd.alike, hd.scopes.trans hahead.scopes,
          hd.listeners.trans hahead.listeners, ?_, ?_⟩, hnews⟩, .inr hq⟩
        · rw [hheard, hahead.heard, List.append_nil]
        · rw [hd.reactor, hahead.discard (h.feed l) (hlistening.readers hp)]
          exact hahead.reactor
      · simp [Pass.commits, o.unfinished, hcommit.concluded.value] at hc
    · rw [hp.tick]
      exact ⟨⟨missed, hahead, hmissed⟩, .inr hp⟩
  | @sendDuring l p e' stream v ha hs ih =>
    obtain ⟨⟨missed, hahead, hmissed⟩, hp⟩ := ih
    have haccept := hahead.accept (h.feed l) (.event stream v)
    have hrunning : p.engine.stopped = false :=
      hahead.alike.stopped.trans (h.feed l).running
    have hadd : p.engine.addEvent stream v = .ok e' := by
      rw [Engine.addEvent, if_neg (by simp [hrunning]), hs]
    rw [show p.engine.accept (.event stream v) = .ok e' from hadd] at haccept
    refine ⟨⟨missed, ?_, hmissed⟩, ?_⟩
    · rw [feed_append]
      exact haccept
    · rcases hp with ⟨o, hp⟩ | hp
      · exact .inl ⟨o.sendDuring hs, hp⟩
      · exact .inr ⟨hp.finished, hp.ended⟩
  | requestAbort ha ih =>
    obtain ⟨⟨missed, hahead, hmissed⟩, hp⟩ := ih
    refine ⟨⟨missed, { hahead with alike := { hahead.alike with } }, hmissed⟩, ?_⟩
    rcases hp with ⟨o, hp⟩ | hp
    · exact .inl ⟨o.requestAbort, hp⟩
    · exact .inr ⟨hp.finished, hp.ended⟩

/-- However the attempt ends, the engine after it is ahead. -/
theorem Attempted.abandon (h : e.Regular t) (ha : Attempted t e l p) :
    ∃ missed, Ahead t e.reactor.inbox.events missed p.abandon.engine (e.feed l) ∧
      (p.machine.status ≠ .ended .budgetExceeded → missed = []) := by
  obtain ⟨⟨missed, hahead, hmissed⟩, ⟨o, hp⟩ | hp⟩ := ha
  · refine ⟨missed, ?_, hmissed⟩
    rw [Pass.abandon, o.unfinished]
    have hdiscard := hahead.discard (h.feed l) (o.listening.readers hp)
    have hreactor := hahead.reactor
    rw [← hdiscard] at hreactor
    exact { hahead with alike := { hahead.alike with }, reactor := hreactor }
  · rw [Pass.abandon, if_pos hp.finished]
    exact ⟨missed, hahead, hmissed⟩

/-- What two engines that were alike and have then been evaluated still have in common, where the
listeners of one had heard such news before. -/
structure Traceless (a before : Engine) (missed : List (Nat × Report)) (b : Engine) : Prop where
  alike : b.Alike a
  scopes : a.scopes = b.scopes
  listeners : a.listeners = b.listeners
  abortRequested : a.abortRequested = b.abortRequested
  reactor : a.reactor = b.reactor.renumber a.reactor.pass
  heard : ∃ news news', a.heard = before.heard ++ missed ++ news ∧ b.heard = before.heard ++ news' ∧
    news.map (fun n => (n.1, n.2.unnumbered)) = news'.map fun n => (n.1, n.2.unnumbered)

/-- A pass of an engine that is ahead is the one of the other engine under another number. -/
theorem Ahead.opened (h : Ahead t taken missed a b) (hb : b.Regular t) :
    (Pass.opened a).setting = (Pass.opened b).setting.renumber (a.reactor.pass + 1) ∧
      (Pass.opened a).engine.reactor =
        { (Pass.opened b).engine.reactor with pass := a.reactor.pass + 1 } := by
  have hr := h.reactor.beginPass hb.ordered hb.reactor.walked
  have hprogram : a.program = .ofTree t := h.alike.program.trans hb.program
  have hreactor : (a.reactor.beginPass a.program).2 =
      { (b.reactor.beginPass b.program).2 with pass := a.reactor.pass + 1 } := by
    rw [hprogram, hb.program, hr]
  have hsnapshot : (a.reactor.beginPass a.program).1 =
      { (b.reactor.beginPass b.program).1 with pass := a.reactor.pass + 1 } := by
    rw [Reactor.snapshot_beginPass, Reactor.snapshot_beginPass, hreactor]
    rfl
  refine ⟨?_, hreactor⟩
  simp only [Pass.opened, Setting.renumber]
  rw [hreactor, hsnapshot]
  simp only [h.alike.program, h.alike.globals, h.alike.config]

end Engine

/-- Two passes that differ in their number, and in the news that had been heard before. -/
structure Pass.Beside (before : Engine) (missed : List (Nat × Report)) (p q : Pass) : Prop where
  setting : p.setting = q.setting.renumber p.engine.reactor.pass
  machine : p.machine = q.machine
  alike : q.engine.Alike p.engine
  scopes : p.engine.scopes = q.engine.scopes
  listeners : p.engine.listeners = q.engine.listeners
  abortRequested : p.engine.abortRequested = q.engine.abortRequested
  reactor : p.engine.reactor = { q.engine.reactor with pass := p.engine.reactor.pass }
  later : q.engine.reactor.pass ≤ p.engine.reactor.pass
  numbered : q.setting.snapshot.pass = q.engine.reactor.pass
  older : ∀ i e, q.engine.reactor.cache.find? i = some e → e.pass < q.engine.reactor.pass
  heard : p.engine.heard = before.heard ++ missed
  heard' : q.engine.heard = before.heard

namespace Pass.Beside

variable {before : Engine} {missed : List (Nat × Report)} {p q : Pass} (h : Beside before missed p q)
include h

theorem commit (done : Record) :
    p.engine.reactor.commit p.engine.program.tree p.setting.snapshot done =
      (q.engine.reactor.commit q.engine.program.tree q.setting.snapshot done).renumber
        p.engine.reactor.pass := by
  have hstamped : q.engine.reactor.cache.Stamped q.engine.reactor.pass := fun i e he =>
    Nat.le_of_lt (h.older i e he)
  rw [← Reactor.commit_renumber hstamped h.later _ h.numbered, Reactor.renumber_of_older h.older,
    ← h.reactor, h.alike.program, h.setting]
  rfl

theorem discard (done : Record) : p.engine.reactor.discard done =
    (q.engine.reactor.discard done).renumber p.engine.reactor.pass := by
  rw [Reactor.renumber_of_older (r := q.engine.reactor.discard done) h.older, h.reactor]
  rfl

theorem report (T : Terminal) (done : Record) :
    (p.report T done).unnumbered = (q.report T done).unnumbered := by
  simp only [Pass.report, h.setting, Setting.renumber, Report.unnumbered]

/-- Both tell the same. -/
theorem announce {a b : Engine} (alike : b.Alike a) (scopes : a.scopes = b.scopes)
    (listeners : a.listeners = b.listeners) (abort : a.abortRequested = b.abortRequested)
    (reactor : a.reactor = b.reactor.renumber p.engine.reactor.pass)
    (heard : a.heard = p.engine.heard) (heard' : b.heard = q.engine.heard) (T : Terminal)
    (done : Record) :
    (a.announce (p.report T done)).Traceless before missed (b.announce (q.report T done)) := by
  obtain ⟨hap, has, har, hal⟩ := engine_announce a (p.report T done)
  obtain ⟨hbp, hbs, hbr, hbl⟩ := engine_announce b (q.report T done)
  have hreport := h.report T done
  have hvalue : (p.report T done).value = (q.report T done).value :=
    (congrArg Report.value hreport :)
  refine ⟨(hbp.symm.trans alike).trans hap, ?_, ?_, ?_, ?_,
    ⟨if (p.report T done).value.isSome then a.listeners.notices (p.report T done) else [],
      if (q.report T done).value.isSome then b.listeners.notices (q.report T done) else [],
      ?_, ?_, ?_⟩⟩
  · rw [has, scopes, hbs]
  · rw [hal, listeners, hbl]
  · rw [abort_announce, abort, abort_announce]
  · rw [har, hbr, reactor]
    rfl
  · exact (heard_announce a _).trans (by rw [heard, h.heard])
  · exact (heard_announce b _).trans (by rw [heard', h.heard'])
  · rw [hvalue, listeners]
    split
    · simp only [Listeners.notices, List.map_map, Function.comp_def, hreport]
    · rfl

/-- Both passes may end with what their machine has come to. -/
theorem conclude (T : Terminal) :
    (p.conclude T).engine.Traceless before missed (q.conclude T).engine := by
  let done := q.machine.record
  have alike : q.engine.Alike p.engine := h.alike
  cases hT : T.value?.isSome with
  | true =>
    have hp : (p.conclude T).engine =
        (p.commit (p.engine.countEvaluations done) done).announce (p.report T done) := by
      simp only [Pass.conclude, close, h.machine, hT, if_true, done]
    have hq : (q.conclude T).engine =
        (q.commit (q.engine.countEvaluations done) done).announce (q.report T done) := by
      simp only [Pass.conclude, close, hT, if_true, done]
    rw [hp, hq]
    exact h.announce (a := p.commit (p.engine.countEvaluations done) done)
      (b := q.commit (q.engine.countEvaluations done) done)
      { alike with } (congrArg Machine.scopes h.machine) h.listeners h.abortRequested
      (h.commit done) rfl rfl T done
  | false =>
    have hp : (p.conclude T).engine =
        (Pass.drop (p.engine.countEvaluations done) done).announce (p.report T done) := by
      simp [Pass.conclude, close, h.machine, hT, done]
    have hq : (q.conclude T).engine =
        (Pass.drop (q.engine.countEvaluations done) done).announce (q.report T done) := by
      simp [Pass.conclude, close, hT, done]
    rw [hp, hq]
    exact h.announce (a := Pass.drop (p.engine.countEvaluations done) done)
      (b := Pass.drop (q.engine.countEvaluations done) done)
      { alike with } h.scopes h.listeners h.abortRequested (h.discard done) rfl rfl T done

/-- Or they may be given up. -/
theorem drop : (p.close Pass.drop).engine.Traceless before missed (q.close Pass.drop).engine where
  alike := { h.alike with }
  scopes := h.scopes
  listeners := h.listeners
  abortRequested := h.abortRequested
  reactor := by
    have hd := h.discard q.machine.record
    simp only [close, h.machine]
    exact hd
  heard := ⟨[], [], h.heard.trans (List.append_nil _).symm, h.heard'.trans (List.append_nil _).symm,
    rfl⟩

end Pass.Beside

namespace Pass

variable {p : Pass} {m : Machine}

/-- A run whose machine ends is worth what is told of it. -/
theorem run_of_terminal {T : Terminal} {v : Value} (hf : p.finished = false)
    (hm : p.machine.finish p.setting p.engine.abortRequested = m) (hT : m.status = .ended T)
    (hv : T.reported? p.setting.root p.setting.budget = some v) :
    p.run = (.ok v, ({ p with machine := m }.conclude T).engine) ∧
      ({ p with machine := m }.conclude T).engine.latest = some v ∧
      ({ p with machine := m }.conclude T).engine.lastReport =
        some ({ p with machine := m }.report T m.record) := by
  have hend : p.toEnd = { p with machine := m }.conclude T := by
    rw [toEnd, hm, settle_of_terminal hf hT]
  have hlatest : ({ p with machine := m }.conclude T).engine.latest = some v := latest_announce hv
  have htold : (if p.finished then p.ending else p.toEnd.result) = .ok (some T) := by
    have hs : p.toEnd.machine.status = .ended T := by
      rw [hend]
      exact hT
    simp [result, hs, hf]
  refine ⟨?_, hlatest, lastReport_announce _ _⟩
  unfold run
  simp only [htold]
  rw [hend]
  cases T with
  | aborted => cases hv
  | done | exception | budgetExceeded => simp only [hlatest]

theorem run_of_broken {fault : Fault} (hf : p.finished = false)
    (hm : p.machine.finish p.setting p.engine.abortRequested = m)
    (hb : m.status = .broken fault) : p.run =
      (.error (.invariantViolation fault), ({ p with machine := m }.close drop).engine) := by
  have hend : p.toEnd = { p with machine := m }.close drop := by
    rw [toEnd, hm, settle_of_broken hf hb]
  have htold : (if p.finished then p.ending else p.toEnd.result) =
      .error (.invariantViolation fault) := by
    have hs : p.toEnd.machine.status = .broken fault := by
      rw [hend]
      exact hb
    simp [result, hs, hf]
  unfold run
  simp only [htold]
  rw [hend]

/-- A fault is told by one tick, and every later one tells that the pass was aborted. -/
theorem poll_of_broken {fault : Fault} (hf : p.finished = false)
    (hb : p.next.status = .broken fault) : p.poll = (.error (.invariantViolation fault), p.tick) ∧
      ∀ n, p.tick.ticks (n + 1) = (.error .aborted, p.tick) := by
  have htick : p.tick = { p with machine := p.next }.close drop := settle_of_broken hf hb
  have hstatus : p.tick.machine.status = .broken fault := by
    rw [htick]
    exact hb
  have hfinished : p.tick.finished = true := by
    rw [htick]
    rfl
  constructor
  · simp [poll, hf, result, hstatus]
  · intro n
    simp [ticks, poll, hfinished, ending, Machine.terminal?, hstatus]

end Pass

namespace Engine

variable {t : Tree} {taken : List StreamEvent} {missed : List (Nat × Report)}
  {a b e before : Engine} {p : Pass} {l : List Input}

/-- Engines that run the same program under the same configuration refuse the same passes. -/
theorem Alike.start (h : e.Alike a) (hs : Pass.start e = .ok p) :
    Pass.start a = .ok (.opened a) := by
  obtain ⟨hrunning, -⟩ := Pass.start_eq_ok hs
  have hstopped : a.stopped = false := h.stopped.trans hrunning
  cases hc : e.config.conflictPolicy with
  | attach => exact Pass.start_eq_opened hstopped (by rw [h.config, hc])
  | refuse =>
    have hblocking : e.program.analysis.blocking.head? = none := by
      cases hb : e.program.analysis.blocking.head? with
      | none => rfl
      | some i =>
        simp [Pass.start, hrunning, hc, hb, bind, Except.bind, throw, throwThe,
          MonadExceptOf.throw] at hs
    simp only [Pass.start, hstopped, h.config, hc, h.program, hblocking, Pass.opened]
    rfl

theorem Ahead.beside (h : Ahead t taken missed a b) (hb : b.Regular t) (m : Machine)
    (hbefore : b.heard = before.heard) :
    Pass.Beside before missed { Pass.opened a with machine := m }
      { Pass.opened b with machine := m } := by
  obtain ⟨hsetting, hreactor⟩ := h.opened hb
  have hpass : (Pass.opened a).engine.reactor.pass = a.reactor.pass + 1 :=
    congrArg Reactor.pass hreactor
  have hb' : (Pass.opened b).engine.reactor.pass = b.reactor.pass + 1 := by
    simp only [Pass.opened, Reactor.beginPass_eq]
  refine ⟨?_, rfl, { h.alike with }, h.scopes, h.listeners, rfl, ?_, ?_, rfl, fun i e he => ?_, ?_, hbefore⟩
  · rw [hpass]
    exact hsetting
  · rw [hpass]
    exact hreactor
  · rw [hpass, hb']
    exact Nat.succ_le_succ (Nat.le_of_lt h.reactor.pass)
  · rw [hb']
    simp only [Pass.opened, Reactor.beginPass_eq] at he
    exact Nat.lt_succ_of_le (hb.reactor.stamped i e he)
  · exact h.heard.trans (by rw [hbefore])

/-- Evaluated, both give the same answer and end alike. -/
theorem Ahead.evaluate (h : Ahead t taken missed a b) (hb : b.Regular t)
    (hs : Pass.start b = .ok (.opened b)) (hbefore : b.heard = before.heard) :
    a.evaluate.1 = b.evaluate.1 ∧ a.evaluate.2.Traceless before missed b.evaluate.2 ∧
      ∀ v, b.evaluate.1 = .ok v → a.evaluate.2.latest = some v ∧ b.evaluate.2.latest = some v ∧
        a.evaluate.2.lastReport.map Report.unnumbered =
          b.evaluate.2.lastReport.map Report.unnumbered := by
  let m := (Machine.start b.scopes).finish (Pass.opened b).setting false
  have beside := h.beside hb m hbefore
  have hmb : (Pass.opened b).machine.finish (Pass.opened b).setting
      (Pass.opened b).engine.abortRequested = m := rfl
  have hma : (Pass.opened a).machine.finish (Pass.opened a).setting
      (Pass.opened a).engine.abortRequested = m := by
    have hmachine : (Pass.opened a).machine = Machine.start b.scopes :=
      congrArg Machine.start h.scopes
    rw [hmachine, (h.opened hb).1]
    exact run_renumber _ _ _ _ _
  have hea : a.evaluate = (Pass.opened a).run := by rw [Engine.evaluate, h.alike.start hs]
  have heb : b.evaluate = (Pass.opened b).run := by rw [Engine.evaluate, hs]
  have ended {T : Terminal} {v : Value} (hT : m.status = .ended T)
      (hv : T.reported? (Pass.opened b).setting.root (Pass.opened b).setting.budget = some v) := by
    have hva : T.reported? (Pass.opened a).setting.root (Pass.opened a).setting.budget = some v := by
      rw [(h.opened hb).1]
      exact hv
    exact And.intro (Pass.run_of_terminal rfl hma hT hva) (Pass.run_of_terminal rfl hmb hT hv)
  have told {T : Terminal} {v : Value} (hT : m.status = .ended T)
      (hv : T.reported? (Pass.opened b).setting.root (Pass.opened b).setting.budget = some v) :
      a.evaluate.1 = b.evaluate.1 ∧ a.evaluate.2.Traceless before missed b.evaluate.2 ∧
        ∀ v, b.evaluate.1 = .ok v → a.evaluate.2.latest = some v ∧ b.evaluate.2.latest = some v ∧
          a.evaluate.2.lastReport.map Report.unnumbered =
            b.evaluate.2.lastReport.map Report.unnumbered := by
    obtain ⟨⟨hra, hla, hpa⟩, hrb, hlb, hpb⟩ := ended hT hv
    rw [hea, heb, hra, hrb]
    refine ⟨rfl, beside.conclude T, fun u hu => ?_⟩
    obtain rfl := Except.ok.inj hu
    refine ⟨hla, hlb, ?_⟩
    rw [hpa, hpb, Option.map_some, Option.map_some]
    exact congrArg some (beside.report T m.record)
  rcases stopped_finish (Pass.opened b).setting b.scopes with ⟨v, hT⟩ | hT | ⟨fault, hf⟩
  · refine told (v := v) hT ?_
    unfold Terminal.ofValue
    split <;> rfl
  · exact told hT rfl
  · have hra := Pass.run_of_broken rfl hma hf
    have hrb := Pass.run_of_broken rfl hmb hf
    rw [hea, heb, hra, hrb]
    exact ⟨rfl, beside.drop, fun v hv => nomatch hv⟩

theorem Attempt.started (h : e.Attempt l p) : ∃ q, Pass.start e = .ok q := by
  induction h with
  | start hs => exact ⟨_, hs⟩
  | tick _ _ ih => exact ih
  | sendDuring _ _ ih => exact ih
  | requestAbort _ ih => exact ih

theorem Regular.alike_feed (h : e.Regular t) (inputs : List Input) : e.Alike (e.feed inputs) := by
  induction inputs generalizing e with
  | nil => exact ⟨rfl, rfl, rfl, rfl⟩
  | cons i rest ih =>
    have first : e.Alike ((e.accept i).toOption.getD e) := by
      cases ha : e.accept i with
      | error x => exact ⟨rfl, rfl, rfl, rfl⟩
      | ok e' =>
        cases i with
        | event stream v => exact (between_addEvent t ha).alike
        | availability stream available => exact (between_setAvailable h.program ha).alike
    exact first.trans (ih (h.accept i))

/-- A pass that does not commit leaves no trace. An engine on which one was attempted is evaluated to
the same value as the same engine without that attempt, after all that has come in meanwhile and
since, and both end alike. -/
theorem Attempt.leaves_no_trace (h : Stage.Reached Tree.Accepted (fun _ => True) (.idle e))
    (ha : e.Attempt l p) (inputs : List Input) :
    let failed := (p.abandon.engine.feed inputs).evaluate
    let spared := (e.feed (l ++ inputs)).evaluate
    failed.1 = spared.1 ∧
      (∃ missed, failed.2.Traceless e missed spared.2 ∧
        (p.machine.status ≠ .ended .budgetExceeded → missed = [])) ∧
      ∀ v, spared.1 = .ok v → failed.2.latest = some v ∧ spared.2.latest = some v ∧
        failed.2.lastReport.map Report.unnumbered = spared.2.lastReport.map Report.unnumbered := by
  intro failed spared
  obtain ⟨t, hr⟩ := h.regular
  obtain ⟨missed, hahead, hmissed⟩ := (hr.attempted ha).abandon hr
  have hregular := (hr.feed l).feed inputs
  obtain ⟨q, hq⟩ := ha.started
  have hstart : Pass.start ((e.feed l).feed inputs) = .ok (.opened ((e.feed l).feed inputs)) := by
    rw [← feed_append]
    exact (hr.alike_feed (l ++ inputs)).start hq
  have hheard : ((e.feed l).feed inputs).heard = e.heard := by rw [heard_feed, heard_feed]
  obtain ⟨hanswer, htrace, hlatest⟩ :=
    (hahead.feed (hr.feed l) inputs).evaluate hregular hstart hheard
  rw [← feed_append] at hanswer htrace hlatest
  exact ⟨hanswer, ⟨missed, htrace, hmissed⟩, hlatest⟩

end Engine

/-! A program that adds a letter whenever a key comes. The pass after a key is aborted halfway. -/

namespace Retry

def draft : Draft :=
  ⟨#[⟨.text "", [], none, none⟩, ⟨.changed "keyboard", [], none, none⟩, ⟨.previous, [], none, none⟩,
    ⟨.text "a", [], none, none⟩, ⟨.binary [.add], [2, 3], none, none⟩,
    ⟨.reaction, [0, 1, 4], none, none⟩]⟩

def tree : Tree := ((draft.finish 5).toOption).getD ⟨#[], 0⟩

def catalog : Catalog := ⟨[("keyboard", ⟨"keyboard", .push, .text, .text ""⟩)]⟩

/-- The engine before its first pass. -/
def fresh : Engine := .load tree catalog .default

/-- After the first pass and a key. -/
def pressed : Engine := fresh.passed.told "keyboard" (.text "k")

/-- The pass after that, when its reaction runs. -/
def halfway : Pass := Nat.iterate Pass.tick 5 (.opened pressed)

/-- It is asked to abort. -/
def aborted : Pass := { halfway with engine := halfway.engine.requestAbort }.tick

/-- What comes in after it. -/
def inputs : List Input :=
  [.availability "keyboard" false, .event "keyboard" (.text "l"), .availability "keyboard" true]

/-- What can be read off the program and its passes. -/
@[mk_iff]
structure Checked : Prop where
  built : draft.finish 5 = .ok tree
  told : (fresh.passed.addEvent "keyboard" (.text "k")).toOption.isSome = true
  runs : pressed.stopped = false ∧ pressed.config.conflictPolicy = .attach
  commits : ∀ k < 5, (Nat.iterate Pass.tick k (.opened pressed)).commits = false
  asked : { halfway with engine := halfway.engine.requestAbort }.commits = false
  spared : (pressed.feed inputs).evaluate.1.toOption.any (·.equal (.text "a")) = true

theorem checked : Checked := checked_iff.2 (by decide +kernel)

theorem reached : Stage.Reached Tree.Accepted (fun _ => True) (.idle pressed) := by
  have hnew : Engine.new tree catalog .default = .ok fresh := rfl
  have new : Stage.Reached Tree.Accepted (fun _ => True) (.idle fresh) :=
    .new ⟨draft, 5, checked.built⟩ hnew
  exact ((new.passed rfl rfl fun _ => trivial).step .leave).told "keyboard" (.text "k")
    checked.told

theorem attempt : pressed.Attempt [] aborted := by
  have hstart := Pass.start_eq_opened checked.runs.1 checked.runs.2
  have ticks (n : Nat) (hc : ∀ k < n, (Nat.iterate Pass.tick k (.opened pressed)).commits = false) :
      pressed.Attempt [] (Nat.iterate Pass.tick n (.opened pressed)) := by
    induction n with
    | zero => exact .start hstart
    | succ n ih =>
      rw [Function.iterate_succ_apply']
      exact (ih fun k hk => hc k (Nat.lt_succ_of_lt hk)).tick (hc n (Nat.lt_succ_self n))
  have half : pressed.Attempt [] halfway := ticks 5 checked.commits
  exact half.requestAbort.tick checked.asked

end Retry

/-- The key counts once, in the pass after the aborted one. -/
theorem Engine.Attempt.retry_counts_once : ∃ v,
    (Retry.aborted.abandon.engine.feed Retry.inputs).evaluate.1 = .ok v ∧
      (Retry.pressed.feed Retry.inputs).evaluate.1 = .ok v ∧ v.equal (.text "a") = true := by
  obtain ⟨hanswer, -, -⟩ := Attempt.leaves_no_trace Retry.reached Retry.attempt Retry.inputs
  obtain ⟨v, hv, heq⟩ := (Option.any_eq_true _ _).1 Retry.checked.spared
  have hok := eq_ok_of_toOption hv
  exact ⟨v, hanswer.trans hok, hok, heq⟩

end StreamLang
