import StreamLang.Proofs.Engine.Session
import StreamLang.Proofs.Machine.Budget
import StreamLang.Proofs.Machine.Whole
import StreamLang.Proofs.Reuse.Between
/-!
The life of a pass. As long as it is open, its machine is the one that was started, some ticks on,
and its engine is what it was started on but for events that wait. The tick that ends it either drops
it, which leaves only subscriptions, or commits what the machine has recorded.
-/
namespace StreamLang

open Machine

/-- Engines that run the same program under the same configuration. -/
structure Engine.Alike (e e' : Engine) : Prop where
  program : e'.program = e.program
  globals : e'.globals = e.globals
  config : e'.config = e.config
  stopped : e'.stopped = e.stopped

theorem Engine.Alike.symm {e e' : Engine} (h : e.Alike e') : e'.Alike e :=
  ⟨h.program.symm, h.globals.symm, h.config.symm, h.stopped.symm⟩

theorem Engine.Alike.trans {e₁ e₂ e₃ : Engine} (h : e₁.Alike e₂) (h' : e₂.Alike e₃) : e₁.Alike e₃ :=
  ⟨h'.program.trans h.program, h'.globals.trans h.globals, h'.config.trans h.config,
    h'.stopped.trans h.stopped⟩

/-- An engine after things that can happen to it between passes, while its program runs. -/
structure Engine.Between (t : Tree) (e e' : Engine) : Prop where
  alike : e.Alike e'
  scopes : e'.scopes = e.scopes
  reactor : e.reactor.Between t e'.reactor

namespace Engine

variable {t : Tree} {e e' : Engine}

theorem between_send (t : Tree) {stream : String} {v : Value} (h : e.send stream v = .ok e') :
    e.Between t e' := by
  obtain ⟨inbox, -, rfl⟩ := inbox_of_send h
  exact ⟨⟨rfl, rfl, rfl, rfl⟩, rfl, Reactor.between_inbox e.reactor inbox⟩

theorem between_addEvent (t : Tree) {stream : String} {v : Value}
    (h : e.addEvent stream v = .ok e') : e.Between t e' :=
  between_send t (send_of_addEvent h)

theorem between_setAvailable (hp : e.program = .ofTree t) {stream : String} {available : Bool}
    (h : e.setAvailable stream available = .ok e') : e.Between t e' := by
  obtain ⟨r, hr, rfl⟩ := setAvailable_eq_ok h
  exact ⟨⟨rfl, rfl, rfl, rfl⟩, rfl, Reactor.between_setAvailable (hp ▸ hr)⟩

theorem between_requestAbort (t : Tree) (e : Engine) : e.Between t e.requestAbort :=
  ⟨⟨rfl, rfl, rfl, rfl⟩, rfl, Relation.ReflTransGen.refl⟩

theorem between_opened (hp : e.program = .ofTree t) : e.Between t (Pass.opened e).engine := by
  have hr := Reactor.between_beginPass (t := t) e.reactor
  rw [← hp] at hr
  exact ⟨⟨rfl, rfl, rfl, rfl⟩, rfl, hr⟩

end Engine

namespace Pass

/-- The machine after the next tick. -/
def next (p : Pass) : Machine := p.machine.tick p.setting p.engine.abortRequested

/-- Whether the next tick commits the pass. -/
def commits (p : Pass) : Bool := !p.finished && p.next.endValue?.isSome

/-- The next tick commits the pass, and takes the mark off a node that the pass has not written: it
hangs together with a node above it that was found to be up to date. -/
def Sweeps (p : Pass) (i : NodeId) : Prop :=
  p.finished = false ∧ p.next.endValue?.isSome ∧
    p.engine.reactor.Sweeps p.engine.program.tree p.setting.snapshot p.next.record i

/-- No node with a committed value that is known to be dirty loses its mark with the next tick, unless
it is written. Nodes whose value depends on a state are not asked about. -/
def Remembers (p : Pass) : Prop :=
  ∀ i, p.setting.program.tree.Stateless i → p.setting.cache.has i = true →
    p.setting.staleness.mark? i = some .dirty → ¬ p.Sweeps i

/-- The next tick confuses no values, and forgets of none that it is dirty. -/
structure Careful (p : Pass) : Prop where
  faithful : p.Faithful
  remembers : p.Remembers

/-- A pass that was started on an engine and has not ended. All nodes that have finished in it, did
so with values that `P` allows. -/
structure Open (p : Pass) (before : Engine) (P : NodeId → Value → Prop) : Prop where
  program : p.setting.program = p.engine.program
  cache : p.setting.cache = p.engine.reactor.cache
  staleness : p.setting.staleness = p.engine.reactor.staleness
  snapshot : p.setting.snapshot = p.engine.reactor.registry.snapshot p.setting.snapshot.pass
  globals : p.setting.globals = p.engine.globals
  policy : p.setting.policy = p.engine.config.unavailablePolicy
  root : p.setting.root = p.engine.program.tree.root
  scopes : p.engine.scopes = before.scopes
  unfinished : p.finished = false
  isRunning : p.machine.isRunning = true
  machine : ∃ k, p.machine = (Machine.start before.scopes).run p.setting false k ∧
    ∀ j < k, ∀ i v, ((Machine.start before.scopes).run p.setting false j).completing? p.setting =
      some (i, v) → P i v

/-- A pass that is over. -/
structure Settled (p : Pass) : Prop where
  finished : p.finished = true
  ended : p.machine.isRunning = false

/-- The pass was dropped by the tick that ended it. -/
structure Dropped (p q : Pass) : Prop where
  alike : p.engine.Alike q.engine
  scopes : q.engine.scopes = p.engine.scopes
  reactor : q.engine.reactor = p.engine.reactor.discard p.next.record
  listeners : q.engine.listeners = p.engine.listeners
  /-- Only of a budget that was exceeded anything is told. -/
  heard : ∃ news, q.engine.heard = p.engine.heard ++ news ∧
    (q.machine.status ≠ .ended .budgetExceeded → news = [])
  value : ∀ T, q.machine.status = .ended T → T.value? = none

/-- The machine after the next tick has ended with a value, so many ticks after it was started. -/
structure Concluded (p : Pass) (before : Engine) (P : NodeId → Value → Prop) (k : Nat) (v : Value) :
    Prop where
  eq : p.next = (Machine.start before.scopes).run p.setting false k
  allowed : ∀ j < k, ∀ i u, ((Machine.start before.scopes).run p.setting false j).completing?
    p.setting = some (i, u) → P i u
  value : p.next.endValue? = some v

/-- The pass was committed by the tick that ended it. -/
structure Committed (p q : Pass) (before : Engine) (P : NodeId → Value → Prop) (k : Nat) (v : Value) :
    Prop where
  alike : p.engine.Alike q.engine
  concluded : p.Concluded before P k v
  scopes : q.engine.scopes = p.next.scopes
  reactor : q.engine.reactor =
    p.engine.reactor.commit p.engine.program.tree p.setting.snapshot p.next.record
  status : q.machine.status = p.next.status

variable {p : Pass} {before e : Engine} {P : NodeId → Value → Prop}

theorem open_opened (e : Engine) : (opened e).Open e P :=
  ⟨rfl, rfl, rfl, rfl, rfl, rfl, rfl, rfl, rfl, rfl, 0, rfl, by simp⟩

theorem engine_announce (e : Engine) (report : Report) : e.Alike (e.announce report) ∧
    (e.announce report).scopes = e.scopes ∧ (e.announce report).reactor = e.reactor ∧
    (e.announce report).listeners = e.listeners := by
  unfold Engine.announce
  cases report.value <;> exact ⟨⟨rfl, rfl, rfl, rfl⟩, rfl, rfl, rfl⟩

theorem heard_announce (e : Engine) (report : Report) : (e.announce report).heard =
    e.heard ++ if report.value.isSome then e.listeners.notices report else [] := by
  unfold Engine.announce
  cases report.value with
  | none => exact (List.append_nil _).symm
  | some v => rfl

theorem latest_announce {e : Engine} {report : Report} {v : Value} (h : report.value = some v) :
    (e.announce report).latest = some v := by
  rw [Engine.announce, h]

theorem abort_announce (e : Engine) (report : Report) :
    (e.announce report).abortRequested = e.abortRequested := by
  unfold Engine.announce
  cases report.value <;> rfl

theorem lastReport_announce (e : Engine) (report : Report) :
    (e.announce report).lastReport = some report := by
  unfold Engine.announce
  cases report.value <;> rfl

/-- A pass that is over stays as it is. -/
theorem Settled.tick (h : p.Settled) : p.tick = p := by
  rw [Pass.tick, Machine.tick_of_ended h.ended, settle, if_pos h.finished]

/-- A pass that was dropped has no value. -/
theorem Dropped.endValue?_eq_none {q : Pass} (h : p.Dropped q) : q.machine.endValue? = none := by
  refine Option.eq_none_iff_forall_ne_some.2 fun v hv => ?_
  obtain ⟨T, hT, hv⟩ := status_of_endValue? hv
  rw [h.value T hT] at hv
  cases hv

theorem Committed.endValue? {q : Pass} {k : Nat} {v : Value} (h : p.Committed q before P k v) :
    q.machine.endValue? = some v := by
  have hv := h.concluded.value
  rwa [Machine.endValue?, terminal?, ← h.status] at hv

theorem Dropped.engine {q : Pass} (h : p.Dropped q) (t : Tree) : p.engine.Between t q.engine :=
  ⟨h.alike, h.scopes, h.reactor ▸ Reactor.between_discard p.engine.reactor p.next.record⟩

theorem dropped_conclude {T : Terminal} (hT : p.next.status = .ended T) (hv : T.value? = none) :
    p.Dropped ({ p with machine := p.next }.conclude T) := by
  let report := { p with machine := p.next }.report T p.next.record
  obtain ⟨halike, hscopes, hreactor, hlisteners⟩ := engine_announce
    (drop (p.engine.countEvaluations p.next.record) p.next.record) report
  have hheard := heard_announce
    (drop (p.engine.countEvaluations p.next.record) p.next.record) report
  have he : ({ p with machine := p.next }.conclude T).engine =
      (drop (p.engine.countEvaluations p.next.record) p.next.record).announce report := by
    simp only [conclude, close, hv]
    rfl
  refine ⟨?_, ?_, ?_, ?_, ?_, fun T' hT' => ?_⟩
  · rw [he]
    exact { halike with }
  · rw [he, hscopes]
    rfl
  · rw [he, hreactor]
    rfl
  · rw [he, hlisteners]
    rfl
  · rw [he]
    refine ⟨_, hheard, fun hne => ?_⟩
    cases T with
    | done v => cases hv
    | exception v => cases hv
    | budgetExceeded => exact absurd hT hne
    | aborted => rfl
  · obtain rfl : T = T' := Status.ended.inj (hT.symm.trans hT')
    exact hv

theorem committed_conclude {T : Terminal} {k : Nat} {v : Value} (hv : T.value? = some v)
    (hm : p.Concluded before P k v) :
    p.Committed ({ p with machine := p.next }.conclude T) before P k v := by
  obtain ⟨halike, hscopes, hreactor, -⟩ := engine_announce
    ({ p with machine := p.next }.commit (p.engine.countEvaluations p.next.record) p.next.record)
    ({ p with machine := p.next }.report T p.next.record)
  have he : ({ p with machine := p.next }.conclude T).engine =
      ({ p with machine := p.next }.commit (p.engine.countEvaluations p.next.record)
        p.next.record).announce ({ p with machine := p.next }.report T p.next.record) := by
    simp only [conclude, close, hv]
    rfl
  refine ⟨?_, hm, ?_, ?_, rfl⟩
  · rw [he]
    exact { halike with }
  · rw [he, hscopes]
    rfl
  · rw [he, hreactor]
    rfl

/-- A pass that does not find any marked node to be up to date forgets nothing. -/
theorem not_sweeps_of_cleaned {e : Engine}
    (h : ((Machine.start e.scopes).finish (opened e).setting false).record.cleaned = []) (k : Nat)
    (i : NodeId) : ¬ (Nat.iterate tick k (opened e)).Sweeps i := by
  let q : Pass := { opened e with machine := (Machine.start e.scopes).run (opened e).setting false k }
  have hk : Nat.iterate tick k (opened e) = q.settle := iterate_tick k rfl
  have hnext : q.next = (Machine.start e.scopes).run (opened e).setting false (k + 1) := by
    rw [run_add, run_succ, run_zero]
    rfl
  rw [hk]
  rintro ⟨hunfinished, hend, -, c, hc, -⟩
  cases hr : q.machine.isRunning with
  | false =>
    rw [finished_settle hr] at hunfinished
    cases hunfinished
  | true =>
    rw [settle_of_running hr] at hend hc
    have hended : q.next.isRunning = false := by
      by_contra hrun
      rw [endValue?_of_isRunning (Bool.not_eq_false _ ▸ hrun)] at hend
      cases hend
    rw [hnext] at hc hended
    rw [run_eq_finish hended, h] at hc
    cases hc

namespace Open

variable (o : p.Open before P)
include o

theorem sendDuring {stream : String} {v : Value} (hs : p.engine.send stream v = .ok e) :
    { p with engine := e }.Open before P := by
  obtain ⟨inbox, -, rfl⟩ := Engine.inbox_of_send hs
  exact { o with }

theorem requestAbort : { p with engine := p.engine.requestAbort }.Open before P := { o with }

theorem abandon (t : Tree) : p.engine.Between t p.abandon.engine := by
  rw [Pass.abandon, o.unfinished]
  exact ⟨⟨rfl, rfl, rfl, rfl⟩, rfl, Reactor.between_discard p.engine.reactor _⟩

theorem next_of_abort (ha : p.engine.abortRequested = true) : p.next.status = .ended .aborted := by
  simp [next, Machine.tick, o.isRunning, ha, cutOff]

/-- A machine that is not asked to abort goes on as it began. -/
theorem next_eq_run (hP : ∀ i v, p.completing? = some (i, v) → P i v)
    (ha : p.engine.abortRequested = false) : ∃ k,
      p.next = (Machine.start before.scopes).run p.setting false k ∧
      ∀ j < k, ∀ i v, ((Machine.start before.scopes).run p.setting false j).completing? p.setting =
        some (i, v) → P i v := by
  obtain ⟨k, hk, hold⟩ := o.machine
  refine ⟨k + 1, by rw [next, ha, run_add, ← hk, run_succ, run_zero], fun j hj i v hc => ?_⟩
  rcases Nat.lt_succ_iff_lt_or_eq.1 hj with hj | rfl
  · exact hold j hj i v hc
  · rw [← hk] at hc
    exact hP i v (by rw [completing?, ha]; exact hc)

/-- If its machine ends with a value, a pass is committed. -/
theorem committed (hP : ∀ i v, p.completing? = some (i, v) → P i v) {v : Value}
    (hv : p.next.endValue? = some v) : ∃ k, p.Committed p.tick before P k v := by
  obtain ⟨T, hT, hTv⟩ := status_of_endValue? hv
  have htick : p.tick = { p with machine := p.next }.conclude T :=
    settle_of_terminal o.unfinished hT
  cases ha : p.engine.abortRequested with
  | true =>
    rw [o.next_of_abort ha] at hT
    cases hT
    cases hTv
  | false =>
    obtain ⟨k, hk, hold⟩ := o.next_eq_run hP ha
    exact ⟨k, htick ▸ committed_conclude hTv ⟨hk, hold, hv⟩⟩

theorem settled_of_endValue {v : Value} (hv : p.next.endValue? = some v) : p.tick.Settled := by
  obtain ⟨T, hT, -⟩ := status_of_endValue? hv
  have htick : p.tick = { p with machine := p.next }.conclude T :=
    settle_of_terminal o.unfinished hT
  rw [htick]
  exact ⟨rfl, by simp [conclude, close, Machine.isRunning, hT]⟩

/-- A tick goes on with a pass, drops it or commits it. -/
theorem tick (hP : ∀ i v, p.completing? = some (i, v) → P i v) :
    p.tick.setting = p.setting ∧ (p.tick.Open before P ∧ p.tick.engine = p.engine ∨
      p.tick.Settled ∧ (p.Dropped p.tick ∨ ∃ k v, p.Committed p.tick before P k v)) := by
  refine ⟨setting_settle, ?_⟩
  have htick : p.tick = { p with machine := p.next }.settle := rfl
  cases hs : p.next.status with
  | running =>
    left
    have hr : p.next.isRunning = true := by simp [Machine.isRunning, hs]
    rw [htick, settle_of_running hr]
    cases ha : p.engine.abortRequested with
    | true =>
      rw [o.next_of_abort ha] at hs
      cases hs
    | false =>
      obtain ⟨k, hk, hold⟩ := o.next_eq_run hP ha
      exact ⟨{ o with isRunning := hr, machine := ⟨k, hk, hold⟩ }, rfl⟩
  | ended T =>
    right
    have hsettle : p.tick = { p with machine := p.next }.conclude T :=
      settle_of_terminal o.unfinished hs
    refine ⟨?_, ?_⟩
    · rw [hsettle]
      exact ⟨rfl, by simp [conclude, close, Machine.isRunning, hs]⟩
    cases hv : T.value? with
    | none =>
      rw [hsettle]
      exact .inl (dropped_conclude hs hv)
    | some v =>
      obtain ⟨k, hc⟩ := o.committed hP (v := v) (by simp [endValue?, terminal?, hs, hv])
      exact .inr ⟨k, v, hc⟩
  | broken fault =>
    right
    rw [htick, settle_of_broken o.unfinished hs]
    refine ⟨⟨rfl, by simp [close, Machine.isRunning, hs]⟩,
      .inl ⟨⟨rfl, rfl, rfl, rfl⟩, rfl, rfl, rfl, ⟨[], (List.append_nil _).symm, fun _ => rfl⟩,
        fun T hT => ?_⟩⟩
    simp [close, hs] at hT

end Open
end Pass
end StreamLang
