import StreamLang.Proofs.Host.Conversation
import StreamLang.Proofs.Host.Readings
import StreamLang.Proofs.Stream.Replay
/-!
Hosts on which the stream `time` is fed by clocks alone. Each clock counts from its own start, and the
stream from the first reading that it has ever taken. As that is zero, the stream shows what each clock
reads: time grows as long as a clock is there, whatever readings were missed, and a new clock in its
place turns time back to zero.
-/
namespace StreamLang

/-- A program finds that the one value is at most the other. -/
def Value.AtMost (v w : Value) : Prop := ∀ node, binary .lessOrEqual v w node = .boolean true

namespace Clock

/-- The stream that clocks feed. -/
def spec : StreamSpec := ⟨"time", .elapsed, .duration, milliseconds .zero⟩

/-- What a reading is for programs if the first one was zero. -/
def shown (n : Nat) : Value := milliseconds (elapsed n)

/-- Readings of one clock, the first of which was made at its start. -/
structure Forward (ns : List Nat) : Prop where
  first : ∀ n ∈ ns.head?, n = 0
  grows : ns.Pairwise (· ≤ ·)

variable {m n : Nat} {ns : List Nat}

theorem shown_mono (h : m ≤ n) : (shown m).AtMost (shown n) := fun _ =>
  congrArg Value.boolean (Amount.atMost_of_le (ranked_elapsed n) (elapsed_mono h))

theorem spec_shown (h : ∀ m ∈ ns.head?, m = 0) (hn : n ∈ ns) :
    spec.shown (spec.origin? (ns.map reading)) (reading n) = shown n := by
  obtain ⟨first, more, rfl⟩ := List.exists_cons_of_ne_nil (List.ne_nil_of_mem hn)
  obtain rfl := h first rfl
  have horigin : spec.origin? ((0 :: more).map reading) = some .zero := congrArg some elapsed_zero
  rw [horigin]
  exact congrArg milliseconds (Amount.sub_zero (ranked_elapsed n))

theorem forward_nil : Forward [] := ⟨nofun, .nil⟩

theorem Forward.snoc (h : Forward ns) (hn : ∀ m ∈ ns, m ≤ n) (h0 : ns = [] → n = 0) :
    Forward (ns ++ [n]) := by
  refine ⟨fun m hm => ?_, List.pairwise_append.2 ⟨h.grows, List.pairwise_singleton .., ?_⟩⟩
  · cases ns with
    | nil => exact (Option.some.inj hm).symm.trans (h0 rfl)
    | cons k rest => exact h.first m hm
  · intro m hm k hk
    exact List.mem_singleton.1 hk ▸ hn m hm

/-- Whichever clock made the first reading of all, it was zero. -/
theorem head_flatten {spells : List (List Nat)} (h : ∀ spell ∈ spells, Forward spell) :
    ∀ n ∈ spells.flatten.head?, n = 0 := by
  induction spells with
  | nil => exact nofun
  | cons spell rest ih =>
    cases spell with
    | nil => exact ih fun spell hs => h spell (List.mem_cons_of_mem _ hs)
    | cons first more => exact (h _ List.mem_cons_self).first

end Clock

open Clock

/-! ### Readings on their way -/

namespace Registry

variable {r r' : Registry} {ns ms : List Nat}

/-- The stream `time` has taken such readings and nothing else. -/
def Timed (r : Registry) (ns : List Nat) : Prop := ∃ s, r.stream? "time" = some s ∧
  s.spec = Clock.spec ∧ s.version = ns.length ∧ s.Measures (ns.map reading)

theorem Timed.same (h : r.Timed ns) (hs : SameEvents r r') : r'.Timed ns := by
  obtain ⟨s, hs', hspec, hversion, horigin, hreadings⟩ := h
  have hledger := hs.2 "time"
  rw [hs', Option.map_some] at hledger
  obtain ⟨s', hstream, heq⟩ := Option.map_eq_some_iff.1 hledger
  simp only [Stream.ledger, Prod.mk.injEq] at heq
  obtain ⟨hspec', hversion', hhistory, hlimit, horigin'⟩ := heq
  refine ⟨s', hstream, hspec'.trans hspec, hversion'.trans hversion, ?_, ?_⟩
  · rw [horigin', horigin, hspec']
  · rw [Stream.readings, hhistory, hlimit, hspec']
    exact hreadings

theorem Timed.takeIn_other (h : r.Timed ns) {e : StreamEvent} (he : e.stream ≠ "time") :
    (r.takeIn e).Timed ns := by
  obtain ⟨s, hs, hrest⟩ := h
  refine ⟨s, ?_, hrest⟩
  rw [takeIn_eq]
  split
  · exact hs
  · split
    · exact hs
    · show (r.set e.stream _).stream? "time" = some s
      rw [stream?_set, if_neg he]
      exact hs

/-- A reading is never refused. -/
theorem Timed.takeIn (h : r.Timed ns) (n : Nat) :
    (r.takeIn ⟨"time", reading n⟩).Timed (ns ++ [n]) := by
  obtain ⟨s, hs, hspec, hversion, hmeasures⟩ := h
  have hfits : s.spec.check (reading n) = .ok () := by
    rw [hspec, reading_eq]
    rfl
  obtain ⟨s', hrecord, hspec', -, hversion', -⟩ := Stream.exists_record hfits r.sequence
  refine ⟨s', ?_, hspec'.trans hspec, ?_, ?_⟩
  · simp only [takeIn_eq, hs, hrecord]
    show (r.set "time" s').stream? "time" = some s'
    rw [stream?_set, if_pos rfl]
  · rw [hversion', hversion, List.length_append, List.length_singleton]
  · rw [List.map_append]
    exact (hmeasures.record hrecord).1

theorem Timed.takeInAll {events : List StreamEvent} (h : r.Timed ns)
    (he : StreamEvent.valuesOf "time" events = ms.map reading) :
    (events.foldl Registry.takeIn r).Timed (ns ++ ms) := by
  induction events generalizing r ns ms with
  | nil =>
    obtain rfl := List.map_eq_nil_iff.1 he.symm
    rwa [List.append_nil]
  | cons e rest ih =>
    obtain ⟨stream, v⟩ := e
    rw [StreamEvent.valuesOf, List.filter_cons] at he
    rw [List.foldl_cons]
    split at he
    · rename_i htime
      obtain rfl : stream = "time" := of_decide_eq_true htime
      obtain ⟨n, more, rfl, rfl, hrest⟩ := List.map_eq_cons_iff.1 he.symm
      have := ih (h.takeIn n) hrest.symm
      rwa [List.append_assoc] at this
    · rename_i hother
      exact ih (h.takeIn_other fun htime => hother (decide_eq_true htime)) he

/-- If the first reading was zero, the stream shows what was read. -/
theorem Timed.values (h : r.Timed ns) (hfirst : ∀ n ∈ ns.head?, n = 0) :
    ∃ s, r.stream? "time" = some s ∧ s.version = ns.length ∧
      s.history.map (·.value) = Stream.keepNewest s.limit (ns.map shown) := by
  obtain ⟨s, hs, hspec, hversion, -, hreadings⟩ := h
  refine ⟨s, hs, hversion, ?_⟩
  have hvalues := congrArg (List.map Prod.snd) hreadings
  rw [Stream.readings, Stream.keepNewest_map, List.map_map, List.map_map, List.map_map,
    hspec] at hvalues
  refine hvalues.trans (congrArg _ (List.map_congr_left fun n hn => ?_))
  exact spec_shown hfirst hn

end Registry

namespace Engine

variable {e e' : Engine} {taken waiting ns : List Nat} {stream : String} {v : Value}

/-- The stream `time` has taken such readings, and others wait. -/
structure Hears (e : Engine) (taken waiting : List Nat) : Prop where
  known : e.reactor.inbox.catalog.get? "time" = some Clock.spec
  taken : e.reactor.registry.Timed taken
  waits : StreamEvent.valuesOf "time" e.reactor.inbox.events = waiting.map reading

/-- Nothing has ever been sent to the stream `time`, which is the built-in one. -/
def Untimed (e : Engine) : Prop := e.Hears [] []

theorem untimed_new {t : Tree} {catalog : Catalog} {config : Config}
    (h : Engine.new t catalog config = .ok e)
    (hc : catalog.get? "time" = Catalog.builtin.get? "time") : e.Untimed := by
  obtain ⟨config', rfl⟩ := new_eq_ok h
  have hspec : catalog.get? "time" = some Clock.spec := hc.trans rfl
  refine ⟨hspec, ?_, rfl⟩
  have hnew : (Registry.new catalog config'.historyLimit).Timed [] := by
    refine ⟨.new Clock.spec config'.historyLimit, ?_, rfl, rfl, Stream.measures_new _ _⟩
    rw [Registry.stream?_new, hspec, Option.map_some]
  exact hnew.same (Registry.sameEvents_subscribeAll _ _)

namespace Hears

theorem send_other (h : e.Hears taken waiting) (hs : e.send stream v = .ok e')
    (hne : stream ≠ "time") : e'.Hears taken waiting := by
  obtain ⟨inbox, hi, rfl⟩ := inbox_of_send hs
  obtain ⟨-, rfl⟩ := Inbox.send_eq_ok hi
  refine ⟨h.known, h.taken, Eq.trans ?_ h.waits⟩
  simp [StreamEvent.valuesOf, hne]

theorem send_reading {n : Nat} (h : e.Hears taken waiting)
    (hs : e.send "time" (reading n) = .ok e') : e'.Hears taken (waiting ++ [n]) := by
  obtain ⟨inbox, hi, rfl⟩ := inbox_of_send hs
  obtain ⟨-, rfl⟩ := Inbox.send_eq_ok hi
  refine ⟨h.known, h.taken, ?_⟩
  rw [List.map_append, ← h.waits]
  simp [StreamEvent.valuesOf]

theorem stop (h : e.Hears taken waiting) : e.stop.Hears taken [] :=
  ⟨h.known, h.taken.same (Registry.sameEvents_unsubscribeAll _), rfl⟩

/-- A pass takes all readings that wait or none. -/
theorem evaluate (h : e.Hears taken waiting) :
    e.evaluate.2.reactor.inbox.closed = e.reactor.inbox.closed ∧
      (e.evaluate.2.Hears taken waiting ∨ e.evaluate.2.Hears (taken ++ waiting) []) := by
  cases hr : Pass.refusal? e with
  | some fault =>
    have hsame : e.evaluate.2 = e := by rw [Engine.evaluate, Pass.start_eq, hr]
    rw [hsame]
    exact ⟨rfl, .inl h⟩
  | none =>
    obtain ⟨hfollows, -⟩ := evaluate_of_accepted hr
    have hopened : (Pass.opened e).engine.reactor = (e.reactor.beginPass e.program).2 := rfl
    have hinbox := hfollows.inbox
    have hevents := hfollows.events
    rw [hopened, Reactor.beginPass_eq] at hinbox hevents
    rw [hinbox]
    refine ⟨rfl, .inr ⟨?_, (h.taken.takeInAll h.waits).same hevents, ?_⟩⟩
    · rw [hinbox]
      exact h.known
    · rw [hinbox]
      rfl

end Hears

/-- Of all readings, the stream `time` has taken the first. The others wait, unless the engine has been
stopped. -/
def Heard (e : Engine) (ns : List Nat) : Prop := ∃ taken waiting, e.Hears taken waiting ∧
  taken ++ waiting <+: ns ∧ (e.reactor.inbox.closed = false → taken ++ waiting = ns)

/-- An engine that accepts something has not been stopped. -/
theorem open_of_send (hs : e.send stream v = .ok e') :
    e.reactor.inbox.closed = false ∧ e'.reactor.inbox.closed = false := by
  obtain ⟨inbox, hi, rfl⟩ := inbox_of_send hs
  have hopen : e.reactor.inbox.closed = false := by
    by_contra hclosed
    rw [Inbox.send, if_pos (by simpa using hclosed)] at hi
    cases hi
  obtain ⟨-, rfl⟩ := Inbox.send_eq_ok hi
  exact ⟨hopen, hopen⟩

namespace Heard

theorem send_other (h : e.Heard ns) (hs : e.send stream v = .ok e') (hne : stream ≠ "time") :
    e'.Heard ns := by
  obtain ⟨taken, waiting, hears, hprefix, hall⟩ := h
  exact ⟨taken, waiting, hears.send_other hs hne, hprefix, fun _ => hall (open_of_send hs).1⟩

theorem send_reading {n : Nat} (h : e.Heard ns) (hs : e.send "time" (reading n) = .ok e') :
    e'.Heard (ns ++ [n]) := by
  obtain ⟨taken, waiting, hears, -, hall⟩ := h
  have heq : taken ++ (waiting ++ [n]) = ns ++ [n] := by
    rw [← List.append_assoc, hall (open_of_send hs).1]
  exact ⟨taken, waiting ++ [n], hears.send_reading hs, heq ▸ List.prefix_rfl, fun _ => heq⟩

theorem evaluate (h : e.Heard ns) : e.evaluate.2.Heard ns := by
  obtain ⟨taken, waiting, hears, hprefix, hall⟩ := h
  obtain ⟨hclosed, hsame | htook⟩ := hears.evaluate
  · exact ⟨taken, waiting, hsame, hprefix, fun ho => hall (hclosed ▸ ho)⟩
  · refine ⟨taken ++ waiting, [], htook, ?_, fun ho => ?_⟩ <;> rw [List.append_nil]
    · exact hprefix
    · exact hall (hclosed ▸ ho)

theorem stop (h : e.Heard ns) : e.stop.Heard ns := by
  obtain ⟨taken, waiting, hears, hprefix, -⟩ := h
  refine ⟨taken, [], hears.stop, ?_, fun ho => by cases ho⟩
  rw [List.append_nil]
  exact (List.prefix_append taken waiting).trans hprefix

end Heard

end Engine

namespace Host

/-! ### A clock, one reading after another -/

/-- What a clock does next that has been started: the reading that it makes, if any, and the host after
it. -/
def readOnce (period origin deadline : Nat) (h : Host) : List Nat × Host :=
  if h.now < deadline then ([], { h with clock := some ⟨period, some (origin, deadline)⟩ })
  else match h.send "time" (reading (h.now - origin)) with
    | .error _ => ([], { h with clock := none })
    | .ok h' => ([h.now - origin],
      { h' with clock := some ⟨period, some (origin, Clock.next period h'.now deadline)⟩ })

/-- What the clock does next. -/
def clockStep (h : Host) : List Nat × Host :=
  match h.clock with
  | none => ([], h)
  | some ⟨0, _⟩ => ([], { h with clock := none })
  | some ⟨period, none⟩ => readOnce period h.now h.now h
  | some ⟨period, some (origin, deadline)⟩ => readOnce period origin deadline h

/-- The same so many times, with all readings. -/
def clockSteps : Nat → Host → List Nat × Host
  | 0, h => ([], h)
  | n + 1, h => (h.clockStep.1 ++ (clockSteps n h.clockStep.2).1, (clockSteps n h.clockStep.2).2)

section

variable {h h' : Host} {period : Nat}

theorem send_clock (h : Host) (clock : Option Clock) (stream : String) (v : Value) :
    { h with clock }.send stream v = (h.send stream v).map ({ · with clock }) := by
  unfold send queue
  cases h.engine.send stream v <;> rfl

theorem readOnce_clock (period origin deadline : Nat) (h : Host) (clock : Option Clock) :
    readOnce period origin deadline { h with clock } = readOnce period origin deadline h := by
  unfold readOnce
  rw [send_clock]
  cases h.send "time" (reading (h.now - origin)) <;> rfl

theorem clockSteps_of_fixed (hs : h.clockStep = ([], h)) (n : Nat) : clockSteps n h = ([], h) := by
  induction n with
  | zero => rfl
  | succ n ih =>
    rw [clockSteps, hs, ih]
    rfl

theorem clockStep_of_none (hc : h.clock = none) : h.clockStep = ([], h) := by
  simp only [clockStep, hc]

theorem clockStep_of_running (hp : 0 < period) (origin deadline : Nat) (h : Host) :
    { h with clock := some ⟨period, some (origin, deadline)⟩ }.clockStep =
      readOnce period origin deadline h := by
  obtain ⟨period, rfl⟩ := Nat.exists_eq_succ_of_ne_zero hp.ne'
  exact readOnce_clock ..

theorem readClock_eq (hp : 0 < period) (origin n deadline : Nat) (h : Host) :
    readClock period origin n deadline h =
      (clockSteps n { h with clock := some ⟨period, some (origin, deadline)⟩ }).2 := by
  induction n generalizing deadline h with
  | zero => rfl
  | succ n ih =>
    have hstep := clockStep_of_running hp origin deadline h
    unfold readClock
    by_cases hearly : h.now < deadline
    · rw [readOnce, if_pos hearly] at hstep
      rw [if_pos hearly, clockSteps_of_fixed hstep]
    · rw [readOnce, if_neg hearly] at hstep
      rw [if_neg hearly, clockSteps, hstep]
      cases h.send "time" (reading (h.now - origin)) with
      | error _ =>
        rw [clockSteps_of_fixed (clockStep_of_none rfl)]
      | ok h' => exact ih _ h'

theorem clockSteps_congr (hs : h.clockStep = h'.clockStep) (n : Nat) :
    clockSteps (n + 1) h = clockSteps (n + 1) h' := by
  rw [clockSteps, hs, clockSteps]

/-- The clock runs one reading after another. -/
theorem runClock_eq (h : Host) : h.runClock = (h.clockSteps (Clock.tolerance + 2)).2 := by
  cases hc : h.clock with
  | none => simp only [runClock, hc, clockSteps_of_fixed (clockStep_of_none hc)]
  | some clock =>
    obtain ⟨period | period, running⟩ := clock
    · have hstep : h.clockStep = ([], { h with clock := none }) := by simp only [clockStep, hc]
      simp only [runClock, hc]
      rw [clockSteps, hstep, clockSteps_of_fixed (clockStep_of_none rfl)]
    · cases running with
      | none =>
        have hstep : { h with clock := some ⟨period + 1, some (h.now, h.now)⟩ }.clockStep =
            h.clockStep := by
          rw [clockStep_of_running (Nat.succ_pos period)]
          simp only [clockStep, hc]
        simp only [runClock, hc]
        rw [readClock_eq (Nat.succ_pos period), clockSteps_congr hstep]
      | some due =>
        simp only [runClock, hc]
        rw [readClock_eq (Nat.succ_pos period), ← hc]

/-- Readings are for the engine task, whatever it is about to do. -/
theorem clockStep_task (h : Host) :
    h.clockStep.2.begun = h.begun ∧ h.clockStep.2.ended = h.ended := by
  have once (period origin deadline : Nat) : (readOnce period origin deadline h).2.begun = h.begun ∧
      (readOnce period origin deadline h).2.ended = h.ended := by
    unfold readOnce
    split
    · exact ⟨rfl, rfl⟩
    · unfold send queue
      cases h.engine.send "time" (reading (h.now - origin)) <;> exact ⟨rfl, rfl⟩
  unfold clockStep
  split
  · exact ⟨rfl, rfl⟩
  · exact ⟨rfl, rfl⟩
  · exact once ..
  · exact once ..

end

/-! ### Driven hosts -/

/-- What a host with a new task on an engine has come to if nobody but its clocks sends anything to the
stream `time`: with the readings of the earlier clocks that were accepted, those of each in a list of
their own, and the readings of the present clock. -/
inductive Driven (e : Engine) : List (List Nat) → List Nat → Moment → Prop where
  | spawn : Driven e [] [] (.of (.spawn e))
  | queue {past current x stream v h} (d : Driven e past current x) (hne : stream ≠ "time")
    (hq : x.host.queue stream v = .ok h) : Driven e past current ⟨h, x.phase⟩
  | wake {past current x} (d : Driven e past current x) (w : Wake) :
    Driven e past current ⟨x.host.wake w, x.phase⟩
  | advance {past current x} (d : Driven e past current x) (elapsed : Nat) :
    Driven e past current ⟨x.host.advance elapsed, x.phase⟩
  | driveClock {past current x} (d : Driven e past current x) (period : Nat) :
    Driven e (past ++ [current]) [] ⟨x.host.driveClock period, x.phase⟩
  | clock {past current x} (d : Driven e past current x) :
    Driven e past (current ++ x.host.clockStep.1) ⟨x.host.clockStep.2, x.phase⟩
  | stopClock {past current x} (d : Driven e past current x) :
    Driven e past current ⟨{ x.host with clock := none }, x.phase⟩
  | task {past current x} (d : Driven e past current x) : Driven e past current x.task

namespace Driven

variable {e : Engine} {past : List (List Nat)} {current : List Nat} {x y : Moment} {h h' : Host}

theorem send {stream : String} {v : Value} (d : Driven e past current x) (hne : stream ≠ "time")
    (hs : x.host.send stream v = .ok h) : Driven e past current ⟨h, x.phase⟩ := by
  obtain ⟨h', hq, heq⟩ := of_bind_eq_ok hs
  obtain rfl := Except.ok.inj heq
  exact (d.queue hne hq).wake .evaluate

theorem leadsTo (d : Driven e past current x) (hxy : x.LeadsTo y) : Driven e past current y := by
  obtain ⟨n, rfl⟩ := hxy
  induction n with
  | zero => exact d
  | succ n ih =>
    rw [Function.iterate_succ_apply']
    exact ih.task

theorem runEngine (d : Driven e past current (.of h)) : Driven e past current (.of h.runEngine) :=
  (d.leadsTo (Moment.leadsTo_taskStep h)).leadsTo (Moment.leadsTo_taskStep h.taskStep)

theorem clockSteps (d : Driven e past current (.of h)) (n : Nat) :
    Driven e past (current ++ (h.clockSteps n).1) (.of (h.clockSteps n).2) := by
  induction n generalizing current h with
  | zero =>
    rw [Host.clockSteps, List.append_nil]
    exact d
  | succ n ih =>
    obtain ⟨hbegun, hended⟩ := h.clockStep_task
    have hof : Moment.of h.clockStep.2 = ⟨h.clockStep.2, (Moment.of h).phase⟩ := by
      rw [Moment.of, hbegun, hended]
      rfl
    have := ih (hof ▸ d.clock)
    rw [List.append_assoc] at this
    exact this

theorem runClock (d : Driven e past current (.of h)) :
    Driven e past (current ++ (h.clockSteps (Clock.tolerance + 2)).1) (.of h.runClock) :=
  h.runClock_eq ▸ d.clockSteps _

/-- All tasks run until they wait. -/
theorem settle (d : Driven e past current (.of h)) :
    Driven e past (current ++ (h.runEngine.clockSteps (Clock.tolerance + 2)).1) (.of h.settle) :=
  d.runEngine.runClock.runEngine

theorem shutdown (d : Driven e past current (.of h)) : Driven e past current (.of h.shutdown) :=
  (d.stopClock.wake .shutdown).runEngine

end Driven

/-! ### What holds on the way -/

/-- What holds of readings while a host is driven. -/
structure OnTime (past : List (List Nat)) (current : List Nat) (h : Host) : Prop where
  heard : h.engine.Heard (past.flatten ++ current)
  earlier : ∀ spell ∈ past, Forward spell
  present : Forward current
  starting : ∀ period, h.clock = some ⟨period, none⟩ → current = []
  running : ∀ period origin deadline, h.clock = some ⟨period, some (origin, deadline)⟩ →
    origin ≤ h.now ∧ (∀ n ∈ current, n ≤ h.now - origin) ∧ current ≠ []

namespace OnTime

variable {past : List (List Nat)} {current : List Nat} {x : Moment} {h h' : Host}

theorem spawn {e : Engine} (he : e.Untimed) : OnTime [] [] (.spawn e) where
  heard := ⟨[], [], he, List.prefix_rfl, fun _ => rfl⟩
  earlier := fun _ hs => absurd hs List.not_mem_nil
  present := forward_nil
  starting := nofun
  running := nofun

/-- What does not touch the clock. -/
theorem same (o : OnTime past current h) (hh : h'.engine.Heard (past.flatten ++ current))
    (hc : h'.clock = h.clock) (hn : h'.now = h.now) : OnTime past current h' where
  heard := hh
  earlier := o.earlier
  present := o.present
  starting := hc ▸ o.starting
  running := hc ▸ hn ▸ o.running

theorem queue (o : OnTime past current h) {stream : String} {v : Value} (hne : stream ≠ "time")
    (hq : h.queue stream v = .ok h') : OnTime past current h' := by
  obtain ⟨engine, hs, heq⟩ := of_bind_eq_ok hq
  obtain rfl := Except.ok.inj heq
  exact o.same (o.heard.send_other hs hne) rfl rfl

theorem advance (o : OnTime past current h) (elapsed : Nat) :
    OnTime past current (h.advance elapsed) where
  heard := o.heard
  earlier := o.earlier
  present := o.present
  starting := o.starting
  running period origin deadline hc := by
    obtain ⟨horigin, hlast, hsome⟩ := o.running period origin deadline hc
    have hnow : (h.advance elapsed).now = h.now + elapsed := rfl
    exact ⟨by omega, fun n hn => (hlast n hn).trans (by omega), hsome⟩

theorem driveClock (o : OnTime past current h) (period : Nat) :
    OnTime (past ++ [current]) [] (h.driveClock period) where
  heard := by
    rw [List.flatten_append, List.flatten_singleton, List.append_nil]
    exact o.heard
  earlier spell hs := by
    rcases List.mem_append.1 hs with hs | hs
    · exact o.earlier spell hs
    · exact List.mem_singleton.1 hs ▸ o.present
  present := forward_nil
  starting _ _ := rfl
  running := by simp [Host.driveClock]

theorem stopClock (o : OnTime past current h) : OnTime past current { h with clock := none } where
  heard := o.heard
  earlier := o.earlier
  present := o.present
  starting := nofun
  running := nofun

/-- The first reading of a clock is made when it starts, and each later one after the one before. -/
theorem readOnce (o : OnTime past current h) {origin deadline : Nat} (period : Nat)
    (horigin : origin ≤ h.now) (hlast : ∀ n ∈ current, n ≤ h.now - origin)
    (hstart : current = [] → origin = h.now ∧ deadline ≤ h.now) :
    OnTime past (current ++ (Host.readOnce period origin deadline h).1)
      (Host.readOnce period origin deadline h).2 := by
  unfold Host.readOnce
  split
  · rename_i hearly
    have hsome : current ≠ [] := fun hnone => by
      have := (hstart hnone).2
      omega
    rw [List.append_nil]
    refine ⟨o.heard, o.earlier, o.present, nofun, fun _ origin' _ hc => ?_⟩
    obtain rfl : origin = origin' := by simp at hc; exact hc.2.1
    exact ⟨horigin, hlast, hsome⟩
  · unfold send Host.queue
    cases hs : h.engine.send "time" (reading (h.now - origin)) with
    | error _ =>
      show OnTime past (current ++ []) { h with clock := none }
      rw [List.append_nil]
      exact o.stopClock
    | ok engine =>
      refine ⟨?_, o.earlier, o.present.snoc hlast fun hnone => ?_, nofun, fun _ origin' _ hc => ?_⟩
      · rw [← List.append_assoc]
        exact o.heard.send_reading hs
      · have := (hstart hnone).1
        omega
      · obtain rfl : origin = origin' := by simp at hc; exact hc.2.1
        refine ⟨horigin, fun n hn => ?_, by simp⟩
        rcases List.mem_append.1 hn with hn | hn
        · exact hlast n hn
        · exact (List.mem_singleton.1 hn).le

theorem clockStep (o : OnTime past current h) :
    OnTime past (current ++ h.clockStep.1) h.clockStep.2 := by
  unfold Host.clockStep
  split
  · rw [List.append_nil]
    exact o
  · rw [List.append_nil]
    exact o.stopClock
  · rename_i period _ hc
    obtain rfl := o.starting period hc
    exact o.readOnce period le_rfl (by simp) fun _ => ⟨rfl, le_rfl⟩
  · rename_i period origin deadline _ hc
    obtain ⟨horigin, hlast, hsome⟩ := o.running period origin deadline hc
    exact o.readOnce period horigin hlast fun hnone => absurd hnone hsome

theorem runPass (o : OnTime past current h) : OnTime past current h.runPass := by
  refine o.same ?_ ?_ ?_
  · rw [runPass_engine]
    exact o.heard.evaluate
  · unfold Host.runPass
    split <;> rfl
  · unfold Host.runPass
    split <;> rfl

theorem finish (o : OnTime past current h) : OnTime past current h.finish :=
  o.same o.heard.stop rfl rfl

theorem task (o : OnTime past current x.host) : OnTime past current x.task.host := by
  have idle {h : Host} (he : h.engine = x.host.engine) (hc : h.clock = x.host.clock)
      (hn : h.now = x.host.now) : OnTime past current h := o.same (he ▸ o.heard) hc hn
  obtain ⟨h, phase⟩ := x
  cases phase with
  | fresh => exact (idle (h := { h with begun := true }) rfl rfl rfl).runPass
  | waiting =>
    cases hw : h.wakes with
    | nil =>
      rw [Moment.task_wait hw]
      exact o
    | cons w rest =>
      cases w with
      | evaluate => exact Moment.task_take hw ▸ idle rfl rfl rfl
      | shutdown => exact Moment.task_leave hw ▸ idle rfl rfl rfl
  | draining asked =>
    cases hw : h.wakes with
    | nil => exact Moment.task_drained hw asked ▸ o
    | cons w rest => exact Moment.task_drain hw asked ▸ idle rfl rfl rfl
  | ready asked => exact o.runPass
  | leaving => exact (idle (h := { h with wakes := [] }) rfl rfl rfl).finish
  | ended => exact o

theorem spells (o : OnTime past current h) : ∀ spell ∈ past ++ [current], Forward spell := by
  intro spell hs
  rcases List.mem_append.1 hs with hs | hs
  · exact o.earlier spell hs
  · exact List.mem_singleton.1 hs ▸ o.present

/-- The first of all readings was zero. -/
theorem first (o : OnTime past current h) {ns : List Nat} (hns : ns <+: past.flatten ++ current) :
    ∀ n ∈ ns.head?, n = 0 := by
  intro n hn
  refine head_flatten o.spells n ?_
  rw [List.flatten_append, List.flatten_singleton]
  obtain ⟨more, hmore⟩ := hns
  rw [← hmore, List.head?_append, hn]
  rfl

end OnTime

/-! ### Time grows while a clock is there -/

namespace Driven

variable {e : Engine} {past : List (List Nat)} {current : List Nat} {x : Moment}

theorem onTime (d : Driven e past current x) (he : e.Untimed) : OnTime past current x.host := by
  induction d with
  | spawn => exact .spawn he
  | queue _ hne hq ih => exact ih.queue hne hq
  | wake _ w ih => exact ih.same ih.heard rfl rfl
  | advance _ elapsed ih => exact ih.advance elapsed
  | driveClock _ period ih => exact ih.driveClock period
  | clock _ ih => exact ih.clockStep
  | stopClock _ ih => exact ih.stopClock
  | task _ ih => exact ih.task

/-- For every host that is driven by clocks, whatever it is sent and whenever it is woken, and all
times at which this happens: the values of `time` are those of the first readings, and all other
readings wait, unless the engine has been stopped. The readings of each clock begin with zero, and
programs find that their values never fall. So the values do not fall at all unless a clock was
replaced that had read more than zero. -/
theorem time_grows (d : Driven e past current x) (he : e.Untimed) :
    let readings := past.flatten ++ current
    let inbox := x.host.engine.reactor.inbox
    ∃ s, x.host.engine.reactor.registry.stream? "time" = some s ∧
      let values := (readings.take s.version).map shown
      s.version ≤ readings.length ∧
      (inbox.closed = false → StreamEvent.valuesOf "time" inbox.events =
        (readings.drop s.version).map reading) ∧
      s.history.map (·.value) = Stream.keepNewest s.limit values ∧
      (∀ spell ∈ past ++ [current], Forward spell ∧ (spell.map shown).Pairwise Value.AtMost) ∧
      ((∀ n ∈ past.flatten, n = 0) → values.Pairwise Value.AtMost) := by
  intro readings inbox
  have o := d.onTime he
  obtain ⟨taken, waiting, hears, hprefix, hall⟩ := o.heard
  have htaken : taken <+: readings := (List.prefix_append taken waiting).trans hprefix
  obtain ⟨s, hs, hversion, hvalues⟩ := hears.taken.values (o.first htaken)
  have htake : readings.take s.version = taken := by
    rw [hversion]
    exact (List.prefix_iff_eq_take.1 htaken).symm
  have mono {ns : List Nat} (h : ns.Pairwise (· ≤ ·)) : (ns.map shown).Pairwise Value.AtMost :=
    List.pairwise_map.2 (h.imp shown_mono)
  refine ⟨s, hs, hversion ▸ htaken.length_le, fun hopen => ?_, htake ▸ hvalues,
    fun spell h => ⟨o.spells spell h, mono (o.spells spell h).grows⟩, fun hzero => mono ?_⟩
  · have hdrop : readings.drop s.version = waiting := by
      rw [show readings = taken ++ waiting from (hall hopen).symm, hversion, List.drop_left]
    rw [hdrop]
    exact hears.waits
  · refine (List.pairwise_append.2 ⟨?_, o.present.grows, ?_⟩).sublist (List.take_sublist ..)
    · exact List.pairwise_of_forall_mem_list fun m hm n _ => hzero m hm ▸ Nat.zero_le n
    · exact fun m hm n _ => hzero m hm ▸ Nat.zero_le n

end Driven

end Host

/-! A clock with a period of ten milliseconds is looked after at the start, after 25 milliseconds and
after 30. Then another clock is put in its place. -/

namespace Watch

open Host

def draft : Draft := ⟨#[⟨.stream "time", [], none, none⟩]⟩

def tree : Tree := ((draft.finish 0).toOption).getD ⟨#[], 0⟩

def fresh : Engine := .load tree .builtin .default

theorem untimed : fresh.Untimed :=
  have hnew : Engine.new tree .builtin .default = .ok fresh := rfl
  Engine.untimed_new hnew rfl

def started : Host := (Host.spawn fresh).driveClock 10

def late : Host := started.settle.advance 25

def again : Host := late.settle.advance 5

def replaced : Host := again.settle.driveClock 10

/-- What the clock reads while everything runs until it waits. -/
def read (h : Host) : List Nat := (h.runEngine.clockSteps (Clock.tolerance + 2)).1

/-- What can be read off the hosts. -/
@[mk_iff]
structure Checked : Prop where
  readings : read started ++ read late ++ read again = [0, 25, 30]
  grown : (again.settle.engine.reactor.registry.stream? "time").any fun s =>
    s.version = 3 ∧ s.limit = 1024
  turned : (replaced.settle.engine.reactor.registry.stream? "time").any fun s =>
    ¬ (s.history.map (·.value)).Pairwise fun v w =>
      (Value.binary .lessOrEqual v w 0).equal (.boolean true)

theorem checked : Checked := checked_iff.2 (by decide +kernel)

theorem driven : Driven fresh [[]] [0, 25, 30] (.of again.settle) := by
  have start : Driven fresh [[]] [] (.of started) := Driven.spawn.driveClock 10
  have first : Driven fresh [[]] (read started) (.of late) := start.settle.advance 25
  have second : Driven fresh [[]] (read started ++ read late) (.of again) := first.settle.advance 5
  exact checked.readings ▸ second.settle

end Watch

/-- One clock shows 0, 25 and 30 ms. -/
theorem Host.Driven.watch_grows :
    ∃ s, Watch.again.settle.engine.reactor.registry.stream? "time" = some s ∧
      s.history.map (·.value) = [shown 0, shown 25, shown 30] ∧
      (s.history.map (·.value)).Pairwise Value.AtMost := by
  obtain ⟨s, hs, -, -, hhistory, -, hgrows⟩ := Driven.time_grows Watch.driven Watch.untimed
  obtain ⟨s', hs', hchecked⟩ := (Option.any_eq_true _ _).1 Watch.checked.grown
  obtain rfl : s = s' := Option.some.inj (hs.symm.trans hs')
  obtain ⟨hversion, hlimit⟩ := of_decide_eq_true hchecked
  have hgrows := hgrows (by simp)
  rw [hversion] at hhistory hgrows
  rw [hlimit] at hhistory
  have hvalues : s.history.map (·.value) = [shown 0, shown 25, shown 30] := hhistory
  exact ⟨s, hs, hvalues, hvalues ▸ hgrows⟩

/-- A new clock starts again from zero, and time falls from 30 to 0 ms. -/
theorem Host.Driven.exists_time_turned_back :
    ¬ ∀ (e : Engine) (past : List (List Nat)) (current : List Nat) (x : Host.Moment) (s : Stream),
      e.Untimed → Host.Driven e past current x →
        x.host.engine.reactor.registry.stream? "time" = some s →
        (s.history.map (·.value)).Pairwise Value.AtMost := by
  intro h
  obtain ⟨s, hs, hturned⟩ := (Option.any_eq_true _ _).1 Watch.checked.turned
  have hgrows := h Watch.fresh _ _ _ s Watch.untimed (Watch.driven.driveClock 10).settle hs
  refine of_decide_eq_true hturned (hgrows.imp fun {v w} hvw => ?_)
  rw [hvw 0]
  rfl

end StreamLang
