import Mathlib.Logic.Function.Iterate
import Mathlib.Logic.Relation
import StreamLang.Engine.Pass
import StreamLang.Proofs.Reuse.Records
/-!
The sessions of an engine: all that can be done to it and to its passes, in any order. A session
stands between passes or in one. A pass is taken tick by tick, so that events may come in and it may
be asked to abort or be given up at any point.
-/
namespace StreamLang

/-- Where a session stands. Of a pass, the engine that it was started on is remembered. -/
inductive Stage where
  | idle (e : Engine)
  | busy (before : Engine) (p : Pass)

/-- The setting of a pass with nothing committed before it, and with another budget. -/
def Setting.scratch (s : Setting) (budget : Nat) : Setting :=
  { s with cache := .empty, staleness := .empty, budget }

namespace Pass

/-- The node that finishes with the next tick, and its value. -/
def completing? (p : Pass) : Option (NodeId × Value) :=
  if p.engine.abortRequested then none else p.machine.completing? p.setting

/-- A bind that finishes with the next tick, and is found equal to its committed value, has that
very value. -/
def Faithful (p : Pass) : Prop :=
  ∀ i v, p.completing? = some (i, v) → p.setting.Faithful i v

/-- No bind that finishes with the next tick is found equal to its committed value. -/
def apart (p : Pass) : Bool :=
  p.completing?.all fun (i, v) =>
    !(p.setting.program.tree.kindIs NodeKind.isBind i && (p.setting.cache.value? i).any (·.equal v))

theorem faithful_of_apart {p : Pass} (h : p.apart = true) : p.Faithful := by
  intro i v hc hbind u hu heq
  simp [apart, hc, hbind, hu, heq] at h

/-- A pass as it is opened. -/
def opened (e : Engine) : Pass :=
  { engine := { e with reactor := (e.reactor.beginPass e.program).2, abortRequested := false }
    setting :=
      { program := e.program
        cache := (e.reactor.beginPass e.program).2.cache
        staleness := (e.reactor.beginPass e.program).2.staleness
        globals := e.globals
        snapshot := (e.reactor.beginPass e.program).1
        root := e.program.tree.root
        budget := e.config.stepBudget
        policy := e.config.unavailablePolicy }
    machine := .start e.scopes
    finished := false }

/-- If a pass starts at all, it is opened on an engine that runs. -/
theorem start_eq_ok {e : Engine} {p : Pass} (h : Pass.start e = .ok p) :
    e.stopped = false ∧ p = opened e := by
  unfold start at h
  cases hs : e.stopped with
  | true => simp [hs, bind, Except.bind, throw, throwThe, MonadExceptOf.throw] at h
  | false =>
    have ok (h : (.ok (opened e) : Except Error Pass) = .ok p) : p = opened e := by
      cases h
      rfl
    have he : opened e = { opened e with
        engine := { (opened e).engine with stopped := false } } := by
      rw [← hs]
      rfl
    rw [he] at ok
    simp only [hs, Bool.false_eq_true, if_false] at h
    refine ⟨rfl, ?_⟩
    rw [he]
    split at h
    · cases hb : e.program.analysis.blocking.head? with
      | none =>
        simp only [hb] at h
        exact ok h
      | some i => simp [hb, bind, Except.bind, throw, throwThe, MonadExceptOf.throw] at h
    · exact ok h

/-- An engine that runs and does not mind blocked nodes opens a pass. -/
theorem start_eq_opened {e : Engine} (hs : e.stopped = false)
    (hc : e.config.conflictPolicy = .attach) : Pass.start e = .ok (opened e) := by
  have hd : ConflictPolicy.attach ≠ .refuse := by decide
  simp only [start, hs, hc, Bool.false_eq_true, if_false, hd, opened]
  rfl

/-- Why an engine opens no pass, if it refuses. -/
def refusal? (e : Engine) : Option Error :=
  if e.stopped then some .stopped
  else if e.config.conflictPolicy = .refuse then
    e.program.analysis.blocking.head?.map fun i =>
      .blockingConflict i (((e.program.tree.node? i).bind Node.blocked?).getD "")
  else none

theorem start_eq (e : Engine) : Pass.start e =
    match refusal? e with
    | some x => .error x
    | none => .ok (opened e) := by
  unfold start refusal?
  cases hs : e.stopped with
  | true => rfl
  | false =>
    have hok : opened e = { opened e with engine := { (opened e).engine with stopped := false } } := by
      rw [← hs]
      rfl
    rw [hok]
    simp only [Bool.false_eq_true, if_false]
    by_cases hc : e.config.conflictPolicy = .refuse
    · simp only [hc, if_true]
      cases e.program.analysis.blocking.head? <;> rfl
    · simp only [hc, if_false]
      rfl

variable {p : Pass}

theorem settle_of_running (h : p.machine.isRunning = true) : p.settle = p := by
  unfold settle
  split
  · rfl
  · split
    · rfl
    · rename_i hs
      simp [Machine.isRunning, hs] at h
    · rename_i hs
      simp [Machine.isRunning, hs] at h

theorem finished_settle (h : p.machine.isRunning = false) : p.settle.finished = true := by
  unfold settle conclude abandon
  split
  · assumption
  · split
    · rename_i hs
      simp [Machine.isRunning, hs] at h
    · rfl
    · rfl

/-- Once its machine has ended, a pass is settled for good. -/
theorem tick_settle (h : p.machine.isRunning = false) : p.settle.tick = p.settle := by
  have hrunning : p.settle.machine.isRunning = false := by
    unfold settle conclude abandon
    split
    · exact h
    · split
      · exact h
      · exact h
      · exact h
  rw [tick, Machine.tick_of_ended hrunning]
  exact if_pos (finished_settle h)

/-- Ticks run the machine and settle the pass when it has ended. -/
theorem iterate_tick (n : Nat) (h : p.machine.isRunning = true) : Nat.iterate tick n p =
    { p with machine := p.machine.run p.setting p.engine.abortRequested n }.settle := by
  induction n generalizing p with
  | zero => exact (settle_of_running h).symm
  | succ n ih =>
    rw [Function.iterate_succ_apply, Machine.run_succ]
    cases hr : (p.machine.tick p.setting p.engine.abortRequested).isRunning with
    | true =>
      have htick : p.tick =
          { p with machine := p.machine.tick p.setting p.engine.abortRequested } :=
        settle_of_running hr
      rw [htick, ih hr]
    | false =>
      rw [Machine.run_of_ended hr]
      exact Function.iterate_fixed (tick_settle hr) n

theorem settle_of_terminal {m : Machine} {T : Terminal} (h : p.finished = false)
    (hT : m.status = .ended T) :
    { p with machine := m }.settle = { p with machine := m }.conclude T := by
  rw [settle, if_neg (by simp [h]), hT]

theorem settle_of_broken {m : Machine} {fault : Fault} (h : p.finished = false)
    (hf : m.status = .broken fault) :
    { p with machine := m }.settle = { p with machine := m }.close drop := by
  rw [settle, if_neg (by simp [h]), hf]
  exact if_neg (by simp [h])

/-- To settle a pass is to leave it alone or to close it. -/
theorem settle_cases (p : Pass) : p.settle = p ∨
    p.finished = false ∧ ((∃ T, p.settle = p.conclude T) ∨ p.settle = p.close drop) := by
  cases hf : p.finished with
  | true => exact .inl (if_pos hf)
  | false =>
    cases hs : p.machine.status with
    | running => exact .inl (settle_of_running (by simp [Machine.isRunning, hs]))
    | ended T => exact .inr ⟨rfl, .inl ⟨T, settle_of_terminal hf hs⟩⟩
    | broken fault => exact .inr ⟨rfl, .inr (settle_of_broken hf hs)⟩

theorem setting_settle : p.settle.setting = p.setting := by
  unfold settle conclude abandon
  split
  · rfl
  · split <;> rfl

theorem setting_iterate_tick (n : Nat) : (Nat.iterate tick n p).setting = p.setting := by
  induction n generalizing p with
  | zero => rfl
  | succ n ih => exact ih.trans setting_settle

end Pass

theorem eq_ok_of_toOption {α ε : Type} {x : Except ε α} {a : α} (h : x.toOption = some a) :
    x = .ok a := by
  cases x with
  | error e => cases h
  | ok b => exact congrArg Except.ok (Option.some.inj h)

namespace Engine

theorem eq_ok_of_isSome {r : Except Error Engine} {e : Engine} (h : r.toOption.isSome = true) :
    r = .ok (r.toOption.getD e) := by
  cases r with
  | error x => cases h
  | ok e' => rfl

/-- The engine after a whole pass. -/
def passed (e : Engine) : Engine := (Pass.opened e).toEnd.abandon.engine

/-- The engine after an event from some sender, if it is accepted. -/
def sent (e : Engine) (stream : String) (v : Value) : Engine :=
  (e.send stream v).toOption.getD e

theorem send_eq_ok {e : Engine} {stream : String} {v : Value}
    (h : (e.send stream v).toOption.isSome = true) : e.send stream v = .ok (e.sent stream v) :=
  eq_ok_of_isSome h

/-- The engine after an event, if it is accepted. -/
def told (e : Engine) (stream : String) (v : Value) : Engine :=
  (e.addEvent stream v).toOption.getD e

theorem addEvent_eq_ok {e : Engine} {stream : String} {v : Value}
    (h : (e.addEvent stream v).toOption.isSome = true) :
    e.addEvent stream v = .ok (e.told stream v) := eq_ok_of_isSome h

end Engine

namespace Stage

/-- What can happen in a session in which such trees may be loaded and such ticks be made. -/
inductive Step (admits : Tree → Prop) (fair : Pass → Prop) : Stage → Stage → Prop where
  | addEvent {e e' stream v} (h : e.addEvent stream v = .ok e') : Step admits fair (idle e) (idle e')
  | setAvailable {e e' stream available} (h : e.setAvailable stream available = .ok e') :
    Step admits fair (idle e) (idle e')
  | defineGlobal {e} (name : String) (v : Value) :
    Step admits fair (idle e) (idle (e.defineGlobal name v))
  | replaceTree {e t} (h : admits t) : Step admits fair (idle e) (idle (e.replaceTree t))
  | start {e p} (h : Pass.start e = .ok p) : Step admits fair (idle e) (busy e p)
  | tick {e p} (h : fair p) : Step admits fair (busy e p) (busy e p.tick)
  | sendDuring {e p e' stream v} (h : p.engine.send stream v = .ok e') :
    Step admits fair (busy e p) (busy e { p with engine := e' })
  | requestAbort {e p} :
    Step admits fair (busy e p) (busy e { p with engine := p.engine.requestAbort })
  /-- A pass that has not ended is given up. -/
  | leave {e p} : Step admits fair (busy e p) (idle p.abandon.engine)

/-- What a session can come to from a new engine. -/
def Reached (admits : Tree → Prop) (fair : Pass → Prop) (s : Stage) : Prop :=
  ∃ t catalog config e, admits t ∧ Engine.new t catalog config = .ok e ∧
    Relation.ReflTransGen (Step admits fair) (idle e) s

variable {admits : Tree → Prop} {fair : Pass → Prop} {s s' : Stage} {e : Engine} {p : Pass}

theorem Reached.new {t : Tree} {catalog : Catalog} {config : Config} (ht : admits t)
    (he : Engine.new t catalog config = .ok e) : Reached admits fair (idle e) :=
  ⟨t, catalog, config, e, ht, he, Relation.ReflTransGen.refl⟩

theorem Step.mono {admits' : Tree → Prop} {fair' : Pass → Prop} (ha : ∀ t, admits t → admits' t)
    (hf : ∀ p, fair p → fair' p) (h : Step admits fair s s') : Step admits' fair' s s' := by
  cases h with
  | addEvent h => exact .addEvent h
  | setAvailable h => exact .setAvailable h
  | defineGlobal name v => exact .defineGlobal name v
  | replaceTree h => exact .replaceTree (ha _ h)
  | start h => exact .start h
  | tick h => exact .tick (hf _ h)
  | sendDuring h => exact .sendDuring h
  | requestAbort => exact .requestAbort
  | leave => exact .leave

theorem Reached.mono {admits' : Tree → Prop} {fair' : Pass → Prop} (ha : ∀ t, admits t → admits' t)
    (hf : ∀ p, fair p → fair' p) (h : Reached admits fair s) : Reached admits' fair' s := by
  obtain ⟨t, catalog, config, e, ht, he, h⟩ := h
  exact ⟨t, catalog, config, e, ha t ht, he,
    Relation.ReflTransGen.mono (fun _ _ hs => hs.mono ha hf) _ _ h⟩

theorem Reached.steps (h : Reached admits fair s)
    (hs : Relation.ReflTransGen (Step admits fair) s s') : Reached admits fair s' := by
  obtain ⟨t, catalog, config, e, ht, he, h⟩ := h
  exact ⟨t, catalog, config, e, ht, he, h.trans hs⟩

theorem Reached.step (h : Reached admits fair s) (hs : Step admits fair s s') :
    Reached admits fair s' := h.steps (.single hs)

theorem steps_ticks (n : Nat) (hf : ∀ k < n, fair (Nat.iterate Pass.tick k p)) :
    Relation.ReflTransGen (Step admits fair) (busy e p) (busy e (Nat.iterate Pass.tick n p)) := by
  induction n with
  | zero => exact .refl
  | succ n ih =>
    rw [Function.iterate_succ_apply']
    exact (ih fun k hk => hf k (Nat.lt_succ_of_lt hk)).tail (.tick (hf n (Nat.lt_succ_self n)))

/-- Running a pass to its end is made of ticks. -/
theorem steps_toEnd (hr : p.machine.isRunning = true)
    (hf : ∀ k, fair (Nat.iterate Pass.tick k p)) :
    Relation.ReflTransGen (Step admits fair) (busy e p) (busy e p.toEnd) := by
  have hend : p.toEnd = Nat.iterate Pass.tick (p.setting.budget + 2) p :=
    (Pass.iterate_tick _ hr).symm
  rw [hend]
  exact steps_ticks _ fun k _ => hf k

/-- A whole pass, if none refuses it. -/
theorem steps_passed (hs : e.stopped = false) (hc : e.config.conflictPolicy = .attach)
    (hf : ∀ k, fair (Nat.iterate Pass.tick k (Pass.opened e))) :
    Relation.ReflTransGen (Step admits fair) (idle e) (busy e (Pass.opened e).toEnd) :=
  .head (.start (Pass.start_eq_opened hs hc)) (steps_toEnd rfl hf)

theorem Reached.ticks (h : Reached admits fair (busy e p)) (n : Nat)
    (hf : ∀ k < n, fair (Nat.iterate Pass.tick k p)) :
    Reached admits fair (busy e (Nat.iterate Pass.tick n p)) := h.steps (steps_ticks n hf)

theorem Reached.toEnd (h : Reached admits fair (busy e p)) (hr : p.machine.isRunning = true)
    (hf : ∀ k, fair (Nat.iterate Pass.tick k p)) : Reached admits fair (busy e p.toEnd) :=
  h.steps (steps_toEnd hr hf)

theorem Reached.passed (h : Reached admits fair (idle e)) (hs : e.stopped = false)
    (hc : e.config.conflictPolicy = .attach)
    (hf : ∀ k, fair (Nat.iterate Pass.tick k (Pass.opened e))) :
    Reached admits fair (busy e (Pass.opened e).toEnd) := h.steps (steps_passed hs hc hf)

theorem Reached.told (h : Reached admits fair (idle e)) (stream : String) (v : Value)
    (hok : (e.addEvent stream v).toOption.isSome = true) :
    Reached admits fair (idle (e.told stream v)) := h.step (.addEvent (Engine.addEvent_eq_ok hok))

/-- What holds of a new engine and is kept by all that can happen holds throughout. -/
theorem Reached.induction {C : Stage → Prop}
    (new : ∀ t catalog config e, admits t → Engine.new t catalog config = .ok e → C (idle e))
    (step : ∀ s s', C s → Step admits fair s s' → C s') (h : Reached admits fair s) : C s := by
  obtain ⟨t, catalog, config, e, ht, he, hs⟩ := h
  induction hs with
  | refl => exact new t catalog config e ht he
  | tail _ hstep ih => exact step _ _ ih hstep

/-- The engine of a stage. -/
def engine : Stage → Engine
  | idle e => e
  | busy _ p => p.engine

@[simp] theorem engine_busy (e : Engine) (p : Pass) : (busy e p).engine = p.engine := rfl

/-- The stages of a pass during so many ticks, the latest first. -/
def ticks (before : Engine) (p : Pass) : Nat → List Stage
  | 0 => [busy before p]
  | n + 1 => busy before (Nat.iterate Pass.tick (n + 1) p) :: ticks before p n

end Stage

open Stage (Reached)

/-- All stages of a session, the latest first. -/
inductive Session (admits : Tree → Prop) (fair : Pass → Prop) : List Stage → Prop where
  | new {t catalog config e} (ht : admits t) (he : Engine.new t catalog config = .ok e) :
    Session admits fair [.idle e]
  | step {s s' past} (h : Session admits fair (s :: past)) (hs : Stage.Step admits fair s s') :
    Session admits fair (s' :: s :: past)

namespace Session

variable {admits : Tree → Prop} {fair : Pass → Prop} {stages : List Stage} {s : Stage}

theorem reached (h : Session admits fair stages) : ∀ s ∈ stages, Reached admits fair s := by
  induction h with
  | new ht he =>
    intro s hs
    obtain rfl := List.mem_singleton.1 hs
    exact .new ht he
  | step _ hs ih =>
    intro s h
    rcases List.mem_cons.1 h with rfl | h
    · exact (ih _ List.mem_cons_self).step hs
    · exact ih s h

theorem ticks {e : Engine} {p : Pass} {past : List Stage}
    (h : Session admits fair (.busy e p :: past)) (n : Nat)
    (hf : ∀ k < n, fair (Nat.iterate Pass.tick k p)) :
    Session admits fair (Stage.ticks e p n ++ past) := by
  induction n with
  | zero => exact h
  | succ n ih =>
    have hn : Stage.ticks e p n = .busy e (Nat.iterate Pass.tick n p) :: (Stage.ticks e p n).tail := by
      cases n <;> rfl
    have ih := ih fun k hk => hf k (Nat.lt_succ_of_lt hk)
    rw [hn] at ih
    rw [Stage.ticks, Function.iterate_succ_apply', hn]
    exact ih.step (.tick (hf n (Nat.lt_succ_self n)))

/-- Whatever is reached is the latest stage of a session. -/
theorem exists_of_reached (h : Reached admits fair s) :
    ∃ past, Session admits fair (s :: past) := by
  obtain ⟨t, catalog, config, e, ht, he, h⟩ := h
  induction h with
  | refl => exact ⟨[], .new ht he⟩
  | tail _ hs ih =>
    obtain ⟨past, ih⟩ := ih
    exact ⟨_, .step ih hs⟩

end Session
end StreamLang
