import StreamLang.Proofs.Engine.Attempts
import StreamLang.Proofs.Engine.Delivery
import StreamLang.Proofs.Host.Task
/-!
What passes between an engine task and those outside. They queue events and wake the task at any
time, also between any two things that it does. Whatever was sent before the task was asked to shut
down is recorded before it ends: as long as some of it waits, a wake is still to come or has been
taken, and after that a pass is made.
-/
namespace StreamLang

/-! ### What a whole pass does to events -/

namespace Engine

/-- The engine is the other one some time on, with nothing else that waits and nothing else taken in. -/
structure Follows (e e' : Engine) : Prop where
  alike : e.Alike e'
  inbox : e'.reactor.inbox = e.reactor.inbox
  events : Registry.SameEvents e.reactor.registry e'.reactor.registry

variable {e e' e'' : Engine}

theorem Follows.trans (h : e.Follows e') (h' : e'.Follows e'') : e.Follows e'' :=
  ⟨h.alike.trans h'.alike, h'.inbox.trans h.inbox, h.events.trans h'.events⟩

theorem follows_countEvaluations (e : Engine) (done : Record) :
    e.Follows (e.countEvaluations done) := ⟨⟨rfl, rfl, rfl, rfl⟩, rfl, .refl _⟩

theorem follows_drop (e : Engine) (done : Record) : e.Follows (Pass.drop e done) :=
  ⟨⟨rfl, rfl, rfl, rfl⟩, rfl, Registry.sameEvents_subscribeAll _ _⟩

theorem follows_commit (e : Engine) (p : Pass) (done : Record) : e.Follows (p.commit e done) := by
  refine ⟨⟨rfl, rfl, rfl, rfl⟩, Reactor.commit_inbox _ _ _ _, ?_⟩
  show Registry.SameEvents _ (e.reactor.commit _ _ _).registry
  rw [Reactor.commit_registry]
  exact (Registry.sameEvents_subscribeAll _ _).trans (Registry.sameEvents_markObserved _ _)

theorem Follows.announce (h : e.Follows e') (report : Report) : e.Follows (e'.announce report) := by
  obtain ⟨halike, -, hreactor, -⟩ := Pass.engine_announce e' report
  exact ⟨h.alike.trans halike, hreactor ▸ h.inbox, hreactor ▸ h.events⟩

theorem follows_conclude (p : Pass) (T : Terminal) : p.engine.Follows (p.conclude T).engine := by
  have hcount := p.engine.follows_countEvaluations p.machine.record
  have hsettled : p.engine.Follows (if T.value?.isSome
      then p.commit (p.engine.countEvaluations p.machine.record) p.machine.record
      else Pass.drop (p.engine.countEvaluations p.machine.record) p.machine.record) := by
    split
    · exact hcount.trans (follows_commit _ p _)
    · exact hcount.trans (follows_drop _ _)
  exact hsettled.announce (p.report T p.machine.record)

/-- A whole pass goes on from where it was opened. It gives a value, which is the latest from then on,
or leaves the latest one. -/
theorem evaluate_of_accepted (hr : Pass.refusal? e = none) :
    (Pass.opened e).engine.Follows e.evaluate.2 ∧
      ((∃ v, e.evaluate.1 = .ok v ∧ e.evaluate.2.latest = some v) ∨
        (∃ x, e.evaluate.1 = .error x) ∧ e.evaluate.2.latest = e.latest) := by
  have heval : e.evaluate = (Pass.opened e).run := by rw [Engine.evaluate, Pass.start_eq, hr]
  have told {T : Terminal} {v : Value}
      (hT : ((Pass.opened e).machine.finish (Pass.opened e).setting false).status = .ended T)
      (hv : T.reported? (Pass.opened e).setting.root (Pass.opened e).setting.budget = some v) :
      (Pass.opened e).engine.Follows e.evaluate.2 ∧
        ∃ v, e.evaluate.1 = .ok v ∧ e.evaluate.2.latest = some v := by
    obtain ⟨hrun, hlatest, -⟩ := Pass.run_of_terminal (p := Pass.opened e) rfl rfl hT hv
    rw [heval, hrun]
    exact ⟨follows_conclude { Pass.opened e with
      machine := (Pass.opened e).machine.finish (Pass.opened e).setting false } T, v, rfl, hlatest⟩
  rcases Machine.stopped_finish (Pass.opened e).setting e.scopes with ⟨v, hT⟩ | hT | ⟨fault, hf⟩
  · have hv : (Terminal.ofValue v).reported? (Pass.opened e).setting.root
        (Pass.opened e).setting.budget = some v := by
      unfold Terminal.ofValue
      split <;> rfl
    exact (told hT hv).imp_right .inl
  · exact (told hT rfl).imp_right .inl
  · rw [heval, Pass.run_of_broken rfl rfl hf]
    exact ⟨(follows_countEvaluations _ _).trans (follows_drop _ _), .inr ⟨⟨_, rfl⟩, rfl⟩⟩

theorem refusal?_of_alike (h : e.Alike e') : Pass.refusal? e' = Pass.refusal? e := by
  rw [Pass.refusal?, Pass.refusal?, h.stopped, h.config, h.program]

end Engine

namespace Host

/-! ### What is said and done -/

/-- What matters to events between a task and those outside. -/
inductive Turn where
  /-- An event was accepted from somebody who will wake the task. -/
  | sent (e : StreamEvent)
  /-- An event was accepted from somebody who will not. -/
  | queued (e : StreamEvent)
  | woke (w : Wake)
  /-- The task made a pass, which took in what waited. -/
  | passed (receipts : List Receipt)

namespace Turn

/-- All accepted events, in order. The latest comes first. -/
def accepted : List Turn → List StreamEvent
  | [] => []
  | sent e :: past | queued e :: past => accepted past ++ [e]
  | _ :: past => accepted past

theorem accepted_prefix {past l : List Turn} (h : past <:+ l) : accepted past <+: accepted l := by
  induction l with
  | nil => exact List.suffix_nil.1 h ▸ List.prefix_rfl
  | cons d l ih =>
    rcases List.suffix_cons_iff.1 h with rfl | hl
    · exact List.prefix_rfl
    · cases d with
      | sent ev | queued ev => exact (ih hl).trans (List.prefix_append _ _)
      | woke w | passed rs => exact ih hl

/-- What waits, if some events did at first. -/
def waiting (first : List StreamEvent) : List Turn → List StreamEvent
  | [] => first
  | sent e :: past | queued e :: past => waiting first past ++ [e]
  | woke _ :: past => waiting first past
  | passed _ :: _ => []

/-- What was sent since the last pass. -/
def unanswered : List Turn → List StreamEvent
  | [] => []
  | sent e :: past => unanswered past ++ [e]
  | passed _ :: _ => []
  | _ :: past => unanswered past

/-- All that was recorded, in order. -/
def recorded : List Turn → List Receipt
  | [] => []
  | passed receipts :: past => recorded past ++ receipts
  | _ :: past => recorded past

def passes : List Turn → Nat
  | [] => 0
  | passed _ :: past => passes past + 1
  | _ :: past => passes past

def woken : List Turn → Nat
  | [] => 0
  | woke _ :: past => woken past + 1
  | _ :: past => woken past

/-- The task has been asked to shut down. -/
def Shut (l : List Turn) : Prop := .woke .shutdown ∈ l

/-- Each pass has recorded what waited. -/
def Regular (first : List StreamEvent) (l : List Turn) : Prop :=
  ∀ rs past, .passed rs :: past <:+ l → rs.map (·.event) = waiting first past

namespace Regular

variable {first : List StreamEvent} {d : Turn} {l : List Turn}

theorem nil (first : List StreamEvent) : Regular first [] := fun rs past h => by simp at h

theorem of_cons (h : Regular first (d :: l)) : Regular first l :=
  fun rs past hs => h rs past (hs.trans (List.suffix_cons d l))

theorem cons (h : Regular first l)
    (hd : ∀ rs, d = .passed rs → rs.map (·.event) = waiting first l) : Regular first (d :: l) := by
  intro rs past hs
  rcases List.suffix_cons_iff.1 hs with hs | hs
  · obtain ⟨rfl, rfl⟩ := List.cons.inj hs
    exact hd rs rfl
  · exact h rs past hs

/-- All accepted events have been recorded or wait. -/
theorem accepted_eq (h : Regular first l) :
    first ++ accepted l = (recorded l).map (·.event) ++ waiting first l := by
  induction l with
  | nil => exact List.append_nil first
  | cons d l ih =>
    have hl := ih h.of_cons
    cases d with
    | sent ev | queued ev => simp only [accepted, recorded, waiting, ← List.append_assoc, hl]
    | woke w => exact hl
    | passed rs =>
      simp only [accepted, recorded, waiting, List.map_append, List.append_nil, hl]
      rw [h rs l List.suffix_rfl]

/-- What was sent and answered is recorded in its place among all that was accepted. -/
theorem prefix_of_sent (h : Regular first l) {ev : StreamEvent} {past : List Turn}
    (hs : .sent ev :: past <:+ l) (hu : unanswered l = []) :
    first ++ accepted past ++ [ev] <+: (recorded l).map (·.event) := by
  induction l with
  | nil => simp at hs
  | cons d l ih =>
    have later (hd : d ≠ .sent ev) : .sent ev :: past <:+ l :=
      (List.suffix_cons_iff.1 hs).resolve_left fun heq => hd (List.cons.inj heq).1.symm
    cases d with
    | sent ev' => simp [unanswered] at hu
    | queued ev' => exact ih h.of_cons (later nofun) hu
    | woke w => exact ih h.of_cons (later nofun) hu
    | passed rs =>
      have hall : first ++ accepted l = (recorded (.passed rs :: l)).map (·.event) := by
        rw [h.of_cons.accepted_eq, recorded, List.map_append, h rs l List.suffix_rfl]
      rw [← hall, List.append_assoc, List.prefix_append_right_inj]
      exact accepted_prefix (later nofun)

end Regular

end Turn

open Turn

/-- What the next thing that the task does is to events. -/
def Moment.turns (x : Moment) : List Turn :=
  match x.phase with
  | .fresh | .ready _ =>
    [.passed (x.host.engine.reactor.registry.receipts x.host.engine.reactor.inbox.events)]
  | _ => []

/-- What a host with a new task on an engine has come to, with all that happened on the way, the
latest first, and the number of those who have sent an event and not woken the task yet. The task is
asked to shut down once, when nobody is about to wake it; a clock may still do so later. -/
inductive Conversation (e : Engine) : List Turn → Moment → Nat → Prop where
  | spawn : Conversation e [] (.of (.spawn e)) 0
  | send {l x owed stream v h} (c : Conversation e l x owed) (hs : ¬ Shut l)
    (hq : x.host.queue stream v = .ok h) :
    Conversation e (.sent ⟨stream, v⟩ :: l) ⟨h, x.phase⟩ (owed + 1)
  | rouse {l x owed} (c : Conversation e l x (owed + 1)) :
    Conversation e (.woke .evaluate :: l) ⟨x.host.wake .evaluate, x.phase⟩ owed
  | queue {l x owed stream v h} (c : Conversation e l x owed)
    (hq : x.host.queue stream v = .ok h) :
    Conversation e (.queued ⟨stream, v⟩ :: l) ⟨h, x.phase⟩ owed
  | evaluate {l x owed} (c : Conversation e l x owed) :
    Conversation e (.woke .evaluate :: l) ⟨x.host.wake .evaluate, x.phase⟩ owed
  | shutdown {l x} (c : Conversation e l x 0) (hs : ¬ Shut l) :
    Conversation e (.woke .shutdown :: l) ⟨x.host.wake .shutdown, x.phase⟩ 0
  | task {l x owed} (c : Conversation e l x owed) : Conversation e (x.turns ++ l) x.task owed

/-- Sending at once is sending and then waking the task. -/
theorem Conversation.send_eq {e : Engine} {l : List Turn} {x : Moment} {owed : Nat} {stream : String}
    {v : Value} {h : Host} (c : Conversation e l x owed) (hs : ¬ Shut l)
    (hsend : x.host.send stream v = .ok h) :
    Conversation e (.woke .evaluate :: .sent ⟨stream, v⟩ :: l) ⟨h, x.phase⟩ owed := by
  obtain ⟨h', hq, heq⟩ := of_bind_eq_ok hsend
  obtain rfl := Except.ok.inj heq
  exact (c.send hs hq).rouse

/-! ### What holds on the way -/

/-- The task will make a pass before it ends, whatever happens: it is on its way to one, or a wake that
asks for one is the first that it will take. -/
def Moment.Attends (x : Moment) : Prop :=
  match x.phase with
  | .fresh | .draining _ | .ready _ => True
  | .waiting => x.host.wakes.head? = some .evaluate
  | .leaving | .ended => False

/-- How many passes the task may still make on account of wakes that were sent. -/
def Moment.due (x : Moment) : Nat :=
  x.host.wakes.length +
    match x.phase with
    | .fresh | .draining _ | .ready _ => 1
    | _ => 0

/-- What holds of events while task and others go on. -/
structure Holds (e : Engine) (before : List Receipt) (l : List Turn) (x : Moment) : Prop where
  running : x.phase ≠ .ended → Pass.refusal? x.host.engine = none
  catalog : x.host.engine.reactor.inbox.catalog = e.reactor.inbox.catalog
  keeps : x.host.engine.reactor.registry.Keeps e.reactor.inbox.catalog (before ++ recorded l)
  waits : x.phase ≠ .ended →
    x.host.engine.reactor.inbox.events = waiting e.reactor.inbox.events l ∧
      ∀ ev ∈ x.host.engine.reactor.inbox.events, ∃ spec,
        e.reactor.inbox.catalog.get? ev.stream = some spec ∧ spec.check ev.value = .ok ()
  recorded : Regular e.reactor.inbox.events l
  published : x.host.published = x.host.engine.latest

/-- What holds of wakes. -/
structure Wakes (l : List Turn) (x : Moment) (owed : Nat) : Prop where
  asked : x.Asked ↔ Shut l
  settled : Shut l → owed = 0
  answered : unanswered l ≠ [] → owed ≠ 0 ∨ x.Attends
  due : passes l + x.due ≤ woken l + 1

variable {e : Engine} {before : List Receipt} {l : List Turn} {x : Moment} {owed : Nat}

theorem holds_spawn (hr : Pass.refusal? e = none) (hl : e.latest = none)
    (hk : e.reactor.registry.Keeps e.reactor.inbox.catalog before)
    (fit : ∀ ev ∈ e.reactor.inbox.events, ∃ spec,
      e.reactor.inbox.catalog.get? ev.stream = some spec ∧ spec.check ev.value = .ok ()) :
    Holds e before [] (.of (.spawn e)) where
  running _ := hr
  catalog := rfl
  keeps := (List.append_nil before).symm ▸ hk
  waits _ := ⟨rfl, fit⟩
  recorded := .nil _
  published := hl.symm

namespace Holds

/-- What is accepted waits. -/
theorem queue (h : Holds e before l x) {stream : String} {v : Value} {host : Host}
    (hq : x.host.queue stream v = .ok host) {d : Turn}
    (hd : d = .sent ⟨stream, v⟩ ∨ d = .queued ⟨stream, v⟩) :
    Holds e before (d :: l) ⟨host, x.phase⟩ := by
  obtain ⟨engine, hs, heq⟩ := of_bind_eq_ok hq
  obtain rfl := Except.ok.inj heq
  obtain ⟨inbox, hi, rfl⟩ := Engine.inbox_of_send hs
  obtain ⟨fits, rfl⟩ := Inbox.send_eq_ok hi
  have hrecorded : Turn.recorded (d :: l) = Turn.recorded l := by rcases hd with rfl | rfl <;> rfl
  have hwaiting : Turn.waiting e.reactor.inbox.events (d :: l) =
      Turn.waiting e.reactor.inbox.events l ++ [⟨stream, v⟩] := by rcases hd with rfl | rfl <;> rfl
  refine ⟨h.running, h.catalog, hrecorded ▸ h.keeps, fun ho => ?_, h.recorded.cons ?_, h.published⟩
  · obtain ⟨hevents, hfit⟩ := h.waits ho
    refine ⟨?_, fun ev hev => ?_⟩
    · rw [hwaiting, ← hevents]
    · rcases List.mem_append.1 hev with hev | hev
      · exact hfit ev hev
      · obtain rfl := List.mem_singleton.1 hev
        exact h.catalog ▸ fits
  · rcases hd with rfl | rfl <;> exact nofun

theorem wake (h : Holds e before l x) (w : Wake) :
    Holds e before (.woke w :: l) ⟨x.host.wake w, x.phase⟩ :=
  ⟨h.running, h.catalog, h.keeps, h.waits, h.recorded.cons nofun, h.published⟩

/-- What the task does without making a pass changes nothing for events, unless it ends. -/
theorem idle (h : Holds e before l x) {host : Host} {phase : Phase} (hx : x.phase ≠ .ended)
    (he : host.engine = x.host.engine) (hp : host.published = x.host.published) :
    Holds e before l ⟨host, phase⟩ :=
  ⟨fun _ => he ▸ h.running hx, he ▸ h.catalog, he ▸ h.keeps, fun _ => he ▸ h.waits hx, h.recorded,
    by rw [hp, he]; exact h.published⟩

/-- A pass records all that waits. -/
theorem pass (h : Holds e before l x) (hx : x.phase ≠ .ended) {host : Host} {phase : Phase}
    (he : host.engine = x.host.engine) (hp : host.published = x.host.published) :
    Holds e before (.passed (x.host.engine.reactor.registry.receipts
      x.host.engine.reactor.inbox.events) :: l) ⟨host.runPass, phase⟩ := by
  obtain ⟨hevents, hfit⟩ := h.waits hx
  obtain ⟨hfollows, hvalue⟩ := Engine.evaluate_of_accepted (h.running hx)
  obtain ⟨hreceipts, hkeeps, -⟩ := h.keeps.recordAll hfit
  have hengine : host.runPass.engine = x.host.engine.evaluate.2 := by rw [runPass_engine, he]
  have hinbox : host.runPass.engine.reactor.inbox = { x.host.engine.reactor.inbox with events := [] } := by
    rw [hengine, hfollows.inbox]
    show (x.host.engine.reactor.beginPass x.host.engine.program).2.inbox = _
    rw [Reactor.beginPass_eq]
  refine ⟨fun _ => ?_, ?_, ?_, fun _ => ?_, h.recorded.cons fun rs hrs => ?_, ?_⟩
  · show Pass.refusal? host.runPass.engine = none
    rw [hengine, Engine.refusal?_of_alike hfollows.alike]
    exact h.running hx
  · show host.runPass.engine.reactor.inbox.catalog = _
    rw [hinbox]
    exact h.catalog
  · show host.runPass.engine.reactor.registry.Keeps _ _
    rw [hengine]
    refine Registry.Keeps.same ?_ hfollows.events
    show (x.host.engine.reactor.beginPass x.host.engine.program).2.registry.Keeps _ _
    rw [Reactor.beginPass_eq, Turn.recorded, ← List.append_assoc]
    exact hkeeps
  · show host.runPass.engine.reactor.inbox.events = [] ∧
      ∀ ev ∈ host.runPass.engine.reactor.inbox.events, _
    rw [hinbox]
    exact ⟨rfl, fun ev hev => absurd hev List.not_mem_nil⟩
  · obtain rfl := Turn.passed.inj hrs
    rw [hreceipts, hevents]
  · show host.runPass.published = host.runPass.engine.latest
    rw [hengine]
    rcases hvalue with ⟨v, hok, hlatest⟩ | ⟨⟨fault, herror⟩, hlatest⟩
    · rw [published_of_ok (he ▸ hok), hlatest]
    · rw [published_of_error (he ▸ herror), hp, h.published, hlatest]

theorem finish (h : Holds e before l x) : Holds e before l ⟨x.host.finish, .ended⟩ := by
  refine ⟨fun ho => absurd rfl ho, h.catalog, ?_, fun ho => absurd rfl ho, h.recorded, h.published⟩
  exact h.keeps.same (Registry.sameEvents_unsubscribeAll _)

theorem task (h : Holds e before l x) : Holds e before (x.turns ++ l) x.task := by
  obtain ⟨host, phase⟩ := x
  cases phase with
  | fresh => exact h.pass (by simp) rfl rfl
  | waiting =>
    cases hw : host.wakes with
    | nil =>
      rw [Moment.task_wait hw]
      exact h
    | cons w rest =>
      cases w with
      | evaluate => exact Moment.task_take hw ▸ h.idle (by simp) rfl rfl
      | shutdown => exact Moment.task_leave hw ▸ h.idle (by simp) rfl rfl
  | draining asked =>
    cases hw : host.wakes with
    | nil => exact Moment.task_drained hw asked ▸ h.idle (by simp) rfl rfl
    | cons w rest => exact Moment.task_drain hw asked ▸ h.idle (by simp) rfl rfl
  | ready asked => exact h.pass (by simp) rfl rfl
  | leaving => exact finish (x := ⟨{ host with wakes := [] }, .leaving⟩) (h.idle (by simp) rfl rfl)
  | ended => exact h

end Holds

namespace Moment

variable {h : Host}

theorem asked_congr (hw : h.wakes = x.host.wakes) : (⟨h, x.phase⟩ : Moment).Asked ↔ x.Asked := by
  simp only [Asked, hw]

theorem attends_congr (hw : h.wakes = x.host.wakes) (hx : x.Attends) :
    (⟨h, x.phase⟩ : Moment).Attends := by
  simpa only [Attends, hw] using hx

theorem due_congr (hw : h.wakes = x.host.wakes) : (⟨h, x.phase⟩ : Moment).due = x.due := by
  simp only [due, hw]

theorem asked_wake (x : Moment) (w : Wake) :
    (⟨x.host.wake w, x.phase⟩ : Moment).Asked ↔ x.Asked ∨ w = .shutdown := by
  obtain ⟨h, phase⟩ := x
  cases phase <;> simp [Asked, wake, eq_comm, or_assoc]

/-- The first wake stays the first. -/
theorem attends_wake (hx : x.Attends) (w : Wake) : (⟨x.host.wake w, x.phase⟩ : Moment).Attends := by
  obtain ⟨h, phase⟩ := x
  cases phase with
  | waiting =>
    have hhead : h.wakes.head? = some .evaluate := hx
    show (h.wakes ++ [w]).head? = some .evaluate
    rw [List.head?_append, hhead]
    rfl
  | _ => exact hx

/-- A wake comes first if all before it ask for a pass as well. -/
theorem attends_of_not_asked (hx : ¬ x.Asked) :
    (⟨x.host.wake .evaluate, x.phase⟩ : Moment).Attends := by
  obtain ⟨h, phase⟩ := x
  cases phase with
  | waiting =>
    show (h.wakes ++ [Wake.evaluate]).head? = some .evaluate
    cases hw : h.wakes with
    | nil => rfl
    | cons w rest =>
      cases w with
      | evaluate => rfl
      | shutdown => simp [Asked, hw] at hx
  | leaving => exact hx trivial
  | ended => exact hx trivial
  | _ => trivial

theorem due_wake (x : Moment) (w : Wake) : (⟨x.host.wake w, x.phase⟩ : Moment).due = x.due + 1 := by
  simp only [due, wake, List.length_append, List.length_singleton]
  omega

theorem attends_task (hx : x.Attends) (hd : x.turns = []) : x.task.Attends := by
  obtain ⟨h, phase⟩ := x
  cases phase with
  | fresh => cases hd
  | waiting =>
    cases hw : h.wakes with
    | nil => simp [Attends, hw] at hx
    | cons w rest =>
      obtain rfl : w = .evaluate := by simpa [Attends, hw] using hx
      rw [task_take hw]
      trivial
  | draining asked =>
    cases hw : h.wakes with
    | nil =>
      rw [task_drained hw]
      trivial
    | cons w rest =>
      rw [task_drain hw]
      trivial
  | ready asked => cases hd
  | leaving => exact hx
  | ended => exact hx

/-- A pass is made on account of the task or of a wake that it has taken. -/
theorem due_task (x : Moment) : passes x.turns + x.task.due ≤ x.due := by
  obtain ⟨h, phase⟩ := x
  cases phase with
  | fresh => simp [turns, passes, due, task, Nat.add_comm]
  | waiting =>
    cases hw : h.wakes with
    | nil => simp [turns, passes, task_wait hw]
    | cons w rest =>
      cases w with
      | evaluate => simp [turns, passes, task_take hw, due, hw]
      | shutdown => simp [turns, passes, task_leave hw, due, hw]
  | draining asked =>
    cases hw : h.wakes with
    | nil => simp [turns, passes, task_drained hw, due]
    | cons w rest => simp [turns, passes, task_drain hw, due, hw]
  | ready asked => cases asked <;> simp [turns, passes, due, task, Nat.add_comm]
  | leaving => simp [turns, passes, due, task, finish]
  | ended => simp [turns, passes, task]

end Moment

namespace Wakes

theorem spawn (e : Engine) : Wakes [] (.of (.spawn e)) 0 :=
  ⟨⟨fun h => absurd h List.not_mem_nil, fun h => absurd h List.not_mem_nil⟩, fun _ => rfl,
    fun h => absurd rfl h, Nat.le_refl _⟩

variable {h : Host}

/-- An event that is sent will be followed by a wake. -/
theorem send (w : Wakes l x owed) (hs : ¬ Shut l) (hw : h.wakes = x.host.wakes) (ev : StreamEvent) :
    Wakes (.sent ev :: l) ⟨h, x.phase⟩ (owed + 1) where
  asked := by simpa [Shut] using (x.asked_congr hw).trans w.asked
  settled hshut := absurd (by simpa [Shut] using hshut) hs
  answered _ := .inl (Nat.succ_ne_zero owed)
  due := by simpa only [passes, woken, Moment.due_congr hw] using w.due

theorem queue (w : Wakes l x owed) (hw : h.wakes = x.host.wakes) (ev : StreamEvent) :
    Wakes (.queued ev :: l) ⟨h, x.phase⟩ owed where
  asked := by simpa [Shut] using (x.asked_congr hw).trans w.asked
  settled hshut := w.settled (by simpa [Shut] using hshut)
  answered hu := (w.answered hu).imp_right (Moment.attends_congr hw)
  due := by simpa only [passes, woken, Moment.due_congr hw] using w.due

theorem evaluate (w : Wakes l x owed) :
    Wakes (.woke .evaluate :: l) ⟨x.host.wake .evaluate, x.phase⟩ owed where
  asked := by simpa [Shut, Moment.asked_wake] using w.asked
  settled hshut := w.settled (by simpa [Shut] using hshut)
  answered hu := (w.answered hu).imp_right fun hx => Moment.attends_wake hx _
  due := by
    have := w.due
    simp only [passes, woken, Moment.due_wake]
    omega

/-- Who has sent an event makes up for the wake before anybody asks to shut down. -/
theorem rouse (w : Wakes l x (owed + 1)) :
    Wakes (.woke .evaluate :: l) ⟨x.host.wake .evaluate, x.phase⟩ owed := by
  have hopen : ¬ Shut l := fun hs => Nat.succ_ne_zero owed (w.settled hs)
  exact { w.evaluate with
    settled := fun hshut => absurd (by simpa [Shut] using hshut) hopen
    answered := fun _ => .inr (Moment.attends_of_not_asked (mt w.asked.1 hopen)) }

theorem shutdown (w : Wakes l x 0) :
    Wakes (.woke .shutdown :: l) ⟨x.host.wake .shutdown, x.phase⟩ 0 where
  asked := by simp [Shut, Moment.asked_wake]
  settled _ := rfl
  answered hu := (w.answered hu).imp_right fun hx => Moment.attends_wake hx _
  due := by
    have := w.due
    simp only [passes, woken, Moment.due_wake]
    omega

theorem task (w : Wakes l x owed) : Wakes (x.turns ++ l) x.task owed := by
  have hdue := w.due
  have htask := x.due_task
  have hasked := x.asked_task.trans w.asked
  have hturns : x.turns = [] ∨ ∃ rs, x.turns = [.passed rs] := by
    unfold Moment.turns
    split <;> simp
  rcases hturns with hd | ⟨rs, hd⟩
  · rw [hd] at htask ⊢
    refine ⟨hasked, w.settled, fun hu => (w.answered hu).imp_right fun hx => ?_, ?_⟩
    · exact Moment.attends_task hx hd
    · rw [passes] at htask
      rw [List.nil_append]
      omega
  · rw [hd] at htask ⊢
    refine ⟨?_, fun hs => w.settled ?_, fun hu => absurd rfl hu, ?_⟩
    · simpa [Shut] using hasked
    · simpa [Shut] using hs
    · simp only [passes, woken, List.cons_append, List.nil_append] at htask ⊢
      omega

/-- When the task has left its loop, nothing that was sent is unanswered. -/
theorem unanswered_of_left (w : Wakes l x owed) (hx : x.phase = .leaving ∨ x.phase = .ended) :
    unanswered l = [] := by
  obtain ⟨h, phase⟩ := x
  have hasked : Moment.Asked ⟨h, phase⟩ := by rcases hx with rfl | rfl <;> trivial
  by_contra hu
  rcases w.answered hu with howed | hattends
  · exact howed (w.settled (w.asked.1 hasked))
  · rcases hx with rfl | rfl <;> exact hattends

end Wakes

/-! ### Nothing is lost -/

/-- What those outside can rely on, whatever they and the task have done so far. -/
structure Answered (e : Engine) (before : List Receipt) (l : List Turn) (x : Moment) : Prop where
  /-- Each pass records all that was accepted since the one before. -/
  recorded : Regular e.reactor.inbox.events l
  /-- Every event is recorded once or waits, and they keep their order. -/
  accepted : e.reactor.inbox.events ++ accepted l =
    (Turn.recorded l).map (·.event) ++ waiting e.reactor.inbox.events l
  numbered : Receipt.Numbered (before ++ Turn.recorded l)
  /-- Each stream has counted its events and keeps the newest. -/
  took : ∀ name s, x.host.engine.reactor.registry.stream? name = some s →
    s.Took (Receipt.ofStream name (before ++ Turn.recorded l))
  /-- When the task has left its loop, what was sent before is recorded, after all that was accepted
  earlier. -/
  heard : x.phase = .leaving ∨ x.phase = .ended → ∀ ev past, .sent ev :: past <:+ l →
    e.reactor.inbox.events ++ Turn.accepted past ++ [ev] <+: (Turn.recorded l).map (·.event)
  passes : passes l ≤ woken l + 1
  published : x.host.published = x.host.engine.latest
  /-- A task that was asked to shut down does so, if only it is left to itself. -/
  ends : Shut l → ∃ y, x.LeadsTo y ∧ y.phase = .ended

namespace Conversation

theorem holds (c : Conversation e l x owed) (h : Holds e before [] (.of (.spawn e))) :
    Holds e before l x := by
  induction c with
  | spawn => exact h
  | send _ _ hq ih => exact ih.queue hq (.inl rfl)
  | rouse _ ih => exact ih.wake .evaluate
  | queue _ hq ih => exact ih.queue hq (.inr rfl)
  | evaluate _ ih => exact ih.wake .evaluate
  | shutdown _ _ ih => exact ih.wake .shutdown
  | task _ ih => exact ih.task

theorem wakes (c : Conversation e l x owed) : Wakes l x owed := by
  have same {h h' : Host} {stream : String} {v : Value} (hq : h.queue stream v = .ok h') :
      h'.wakes = h.wakes := by
    obtain ⟨engine, -, heq⟩ := of_bind_eq_ok hq
    exact Except.ok.inj heq ▸ rfl
  induction c with
  | spawn => exact .spawn e
  | send _ hs hq ih => exact ih.send hs (same hq) _
  | rouse _ ih => exact ih.rouse
  | queue _ hq ih => exact ih.queue (same hq) _
  | evaluate _ ih => exact ih.evaluate
  | shutdown _ _ ih => exact ih.shutdown
  | task _ ih => exact ih.task

/-- However those outside and the task take turns, nothing that was sent is lost. -/
theorem all_answered {earlier : List Happening} (h : Chronicle earlier (.idle e)) (hl : e.latest = none)
    (hr : Pass.refusal? e = none) (c : Conversation e l x owed) :
    Answered e (Happening.receipts earlier) l x := by
  obtain ⟨htells, -⟩ := h.tells
  have hholds := c.holds (holds_spawn hr hl htells.keeps htells.fit)
  have hwakes := c.wakes
  exact {
    recorded := hholds.recorded
    accepted := hholds.recorded.accepted_eq
    numbered := hholds.keeps.numbered
    took := hholds.keeps.took
    heard := fun hx ev past hs => hholds.recorded.prefix_of_sent hs (hwakes.unanswered_of_left hx)
    passes := (Nat.le_add_right _ x.due).trans hwakes.due
    published := hholds.published
    ends := fun hs => (hwakes.asked.2 hs).leadsTo_over }

end Conversation

end Host

/-! A program that shows the last key. One key is sent before the first pass; one while the task drains
its wakes, and one after it has drained them all; then it is asked to shut down. -/

namespace Correspondence

open Host

/-- After a key was sent. -/
def say (x : Moment) (key : String) : Moment :=
  ⟨(x.host.queue "keyboard" (.text key)).toOption.getD x.host, x.phase⟩

def call (x : Moment) (w : Wake) : Moment := ⟨x.host.wake w, x.phase⟩

/-- Before the first pass, with a key. -/
def start : Moment := say (.of (.spawn Relay.fresh)) "a"

/-- The task has taken the wake that belongs to the first key. -/
def taken : Moment := (call start.task .evaluate).task

/-- The task has also taken the one that belongs to the second key. -/
def drained : Moment := (call (say taken "b") .evaluate).task.task

/-- After the second pass. -/
def answered : Moment := (say drained "c").task

/-- The task has made its last pass. -/
def last : Moment := Moment.task^[5] (call (call answered .evaluate) .shutdown)

/-- What can be read off the task and its passes. -/
@[mk_iff]
structure Checked : Prop where
  accepts : Pass.refusal? Relay.fresh = none
  first : ((Host.spawn Relay.fresh).queue "keyboard" (.text "a")).toOption.isSome = true
  second : (taken.host.queue "keyboard" (.text "b")).toOption.isSome = true
  third : (drained.host.queue "keyboard" (.text "c")).toOption.isSome = true
  ended : last.phase = .ended
  shows : last.host.published.any (·.equal (.text "c")) = true

theorem checked : Checked := checked_iff.2 (by decide +kernel)

/-- All that happened, the latest first. -/
def story : List Turn :=
  [.passed [], .woke .shutdown, .woke .evaluate,
    .passed [⟨⟨"keyboard", .text "b"⟩, 1, 2⟩, ⟨⟨"keyboard", .text "c"⟩, 2, 3⟩],
    .sent ⟨"keyboard", .text "c"⟩, .woke .evaluate, .sent ⟨"keyboard", .text "b"⟩, .woke .evaluate,
    .passed [⟨⟨"keyboard", .text "a"⟩, 0, 1⟩], .sent ⟨"keyboard", .text "a"⟩]

theorem conversation : Conversation Relay.fresh story last 0 := by
  have said {h : Host} {key : String}
      (hq : (h.queue "keyboard" (.text key)).toOption.isSome = true) :
      h.queue "keyboard" (.text key) = .ok ((h.queue "keyboard" (.text key)).toOption.getD h) := by
    obtain ⟨h', hh⟩ := Option.isSome_iff_exists.1 hq
    rw [hh]
    exact eq_ok_of_toOption hh
  have unasked (n : Nat) (hn : 2 ≤ n) : ¬ Turn.Shut (story.drop n) := by
    intro hs
    have hs : Turn.woke .shutdown ∈ story.drop 2 := (List.drop_sublist_drop_left story hn).mem hs
    simp [story] at hs
  have first : Conversation Relay.fresh (story.drop 7) taken 0 :=
    ((Conversation.spawn.send (by simp [Turn.Shut]) (said checked.first)).task.rouse).task
  have second : Conversation Relay.fresh (story.drop 5) drained 0 :=
    (first.send (unasked 7 (by decide)) (said checked.second)).rouse.task.task
  have third : Conversation Relay.fresh (story.drop 3) answered 1 :=
    (second.send (unasked 5 (by decide)) (said checked.third)).task
  exact (third.rouse.shutdown (unasked 2 (by decide))).task.task.task.task.task

end Correspondence

/-- All three keys are recorded, each by the pass after it was sent, and the last one is shown. -/
theorem Host.Conversation.keys_answered :
    Answered Relay.fresh [] Correspondence.story Correspondence.last ∧ Correspondence.last.phase = .ended ∧
      Correspondence.last.host.engine.latest.any (·.equal (.text "c")) = true := by
  have hnew : Engine.new Relay.tree Relay.catalog .default = .ok Relay.fresh := rfl
  have h := Conversation.all_answered (.new hnew) rfl Correspondence.checked.accepts Correspondence.conversation
  exact ⟨h, Correspondence.checked.ended, h.published ▸ Correspondence.checked.shows⟩

end StreamLang
