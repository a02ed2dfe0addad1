import StreamLang.Proofs.Engine.Attempts
import StreamLang.Proofs.Engine.Captures
import StreamLang.Proofs.Engine.FromScratch
import StreamLang.Proofs.Engine.Isolation
/-!
Two sessions that go through the same operations, with configurations that differ in how many committed
values are kept. Whatever their passes evaluate, they see the same: streams with the same events, of which
the same have been seen, and the same globals (`Stage.Alongside.twins`).
-/
namespace StreamLang

open Machine

theorem Pass.endValue?_abandon (p : Pass) : p.abandon.machine.endValue? = p.machine.endValue? := by
  unfold abandon
  split <;> rfl

/-- Engines that show programs the same: the same names around them, and streams with the same
events, of which the same have been seen. -/
structure Engine.Twin (a b : Engine) : Prop where
  program : b.program = a.program
  outer : b.scopes.lookup b.globals = a.scopes.lookup a.globals
  policy : b.config.unavailablePolicy = a.config.unavailablePolicy
  stopped : b.stopped = a.stopped
  registry : b.reactor.registry = a.reactor.registry
  inbox : b.reactor.inbox = a.reactor.inbox
  pass : b.reactor.pass = a.reactor.pass

/-- What a pass has done to what programs can see: nothing, unless its machine has ended with a value;
then all that it saw has been observed. -/
structure Engine.Advanced (a : Engine) (p : Pass) : Prop where
  setting : p.setting = (Pass.opened a).setting
  program : p.engine.program = a.program
  outer : p.engine.scopes.lookup p.engine.globals = a.scopes.lookup a.globals
  policy : p.engine.config.unavailablePolicy = a.config.unavailablePolicy
  stopped : p.engine.stopped = a.stopped
  registry : p.engine.reactor.registry =
    if p.machine.endValue?.isSome then
      (Pass.opened a).engine.reactor.registry.markObserved (Pass.opened a).setting.snapshot
    else (Pass.opened a).engine.reactor.registry
  pass : p.engine.reactor.pass = (Pass.opened a).engine.reactor.pass

namespace Engine.Twin

variable {a b a' b' : Engine}

theorem opened (h : a.Twin b) : (Pass.opened a).engine.Twin (Pass.opened b).engine := by
  have hr : (b.reactor.beginPass b.program).2.registry = (a.reactor.beginPass a.program).2.registry := by
    rw [Reactor.beginPass_registry, Reactor.beginPass_registry, h.inbox, h.registry]
  have hi : (b.reactor.beginPass b.program).2.inbox = (a.reactor.beginPass a.program).2.inbox := by
    rw [Reactor.beginPass_inbox, Reactor.beginPass_inbox, h.inbox]
  have hp : (b.reactor.beginPass b.program).2.pass = (a.reactor.beginPass a.program).2.pass := by
    rw [Reactor.beginPass_eq, Reactor.beginPass_eq]
    exact congrArg (· + 1) h.pass
  exact ⟨h.program, h.outer, h.policy, h.stopped, hr, hi, hp⟩

theorem snapshot (h : a.Twin b) :
    (Pass.opened b).setting.snapshot = (Pass.opened a).setting.snapshot := by
  have ho := h.opened
  show (b.reactor.beginPass b.program).1 = (a.reactor.beginPass a.program).1
  rw [Reactor.snapshot_beginPass, Reactor.snapshot_beginPass]
  exact congrArg₂ Registry.snapshot ho.registry ho.pass

theorem send (h : a.Twin b) {stream : String} {v : Value} (ha : a.send stream v = .ok a')
    (hb : b.send stream v = .ok b') : a'.Twin b' := by
  obtain ⟨i, hi, rfl⟩ := Engine.inbox_of_send ha
  obtain ⟨j, hj, rfl⟩ := Engine.inbox_of_send hb
  rw [h.inbox, hi] at hj
  exact { h with inbox := (Except.ok.inj hj).symm }

theorem addEvent (h : a.Twin b) {stream : String} {v : Value} (ha : a.addEvent stream v = .ok a')
    (hb : b.addEvent stream v = .ok b') : a'.Twin b' :=
  h.send (Engine.send_of_addEvent ha) (Engine.send_of_addEvent hb)

theorem setAvailable (h : a.Twin b) {stream : String} {available : Bool}
    (ha : a.setAvailable stream available = .ok a')
    (hb : b.setAvailable stream available = .ok b') : a'.Twin b' := by
  obtain ⟨r, hr, rfl⟩ := Engine.setAvailable_eq_ok ha
  obtain ⟨r', hr', rfl⟩ := Engine.setAvailable_eq_ok hb
  obtain ⟨readers, registry, hx, rfl⟩ := Reactor.setAvailable_eq_ok hr
  obtain ⟨readers', registry', hx', rfl⟩ := Reactor.setAvailable_eq_ok hr'
  rw [h.registry, hx] at hx'
  obtain ⟨-, rfl⟩ := Prod.mk.inj (Except.ok.inj hx')
  exact { h with registry := rfl }

theorem reset (h : a.Twin b) : a.reset.Twin b.reset := by
  have hr : b.reset.reactor.registry = a.reset.reactor.registry := by
    unfold Engine.reset
    simp only [h.stopped, h.program]
    split <;> simp only [Reactor.invalidate, Reactor.subscribeReaders, h.registry]
  have keep (e : Engine) : e.reset.reactor.inbox = e.reactor.inbox ∧
      e.reset.reactor.pass = e.reactor.pass := by
    unfold Engine.reset
    simp only
    split <;> exact ⟨rfl, rfl⟩
  exact ⟨h.program, h.outer, h.policy, h.stopped, hr, by rw [(keep a).1, (keep b).1, h.inbox],
    by rw [(keep a).2, (keep b).2, h.pass]⟩

theorem defineGlobal (h : a.Twin b) (ha : a.Housed) (hb : b.Housed) (name : String) (v : Value) :
    (a.defineGlobal name v).Twin (b.defineGlobal name v) := by
  refine Twin.reset (a := { a with scopes := a.scopes.define a.globals name v })
    (b := { b with scopes := b.scopes.define b.globals name v }) { h with outer := ?_ }
  funext other
  rw [Scopes.lookup_define ha.nested ha.globals, Scopes.lookup_define hb.nested hb.globals, h.outer]

theorem replaceTree (h : a.Twin b) (t : Tree) : (a.replaceTree t).Twin (b.replaceTree t) :=
  Twin.reset (a := { a with program := .ofTree t, evaluations := ∅ })
    (b := { b with program := .ofTree t, evaluations := ∅ }) { h with program := rfl }

/-- Twins are twins again after a pass of each, if both or neither of them committed. -/
theorem advanced (h : a.Twin b) {p q : Pass} (hp : a.Advanced p) (hq : b.Advanced q)
    (hi : q.inbox = p.inbox)
    (hc : p.machine.endValue?.isSome = q.machine.endValue?.isSome) : p.engine.Twin q.engine := by
  have ho := h.opened
  refine ⟨?_, ?_, ?_, ?_, ?_, hi, ?_⟩
  · rw [hq.program, hp.program, h.program]
  · rw [hq.outer, hp.outer, h.outer]
  · rw [hq.policy, hp.policy, h.policy]
  · rw [hq.stopped, hp.stopped, h.stopped]
  · rw [hq.registry, hp.registry, hc, ho.registry, h.snapshot]
  · rw [hq.pass, hp.pass, ho.pass]

end Engine.Twin

namespace Engine.Advanced

variable {a e : Engine} {p : Pass}

theorem opened (a : Engine) : a.Advanced (Pass.opened a) := ⟨rfl, rfl, rfl, rfl, rfl, rfl, rfl⟩

theorem sendDuring (h : a.Advanced p) {stream : String} {v : Value}
    (hs : p.engine.send stream v = .ok e) : a.Advanced { p with engine := e } := by
  obtain ⟨inbox, -, rfl⟩ := Engine.inbox_of_send hs
  exact { h with }

theorem requestAbort (h : a.Advanced p) :
    a.Advanced { p with engine := p.engine.requestAbort } := { h with }

/-- Subscriptions of a pass are of readers that are subscribed already. -/
theorem subscribeAll {t : Tree} {P : NodeId → Value → Prop} (r : p.engine.Regular t)
    (o : p.Open a P) {m : Machine} (hm : m.Listening p.setting) :
    p.engine.reactor.registry.subscribeAll m.record.subscriptions = p.engine.reactor.registry :=
  Registry.subscribeAll_of_subscribed r.reactor.subscribed
    (hm.readers (by rw [o.program, r.program]))

theorem follow (h : a.Advanced p) {q : Pass} (hsetting : q.setting = p.setting)
    (halike : p.engine.Alike q.engine)
    (houter : q.engine.scopes.lookup p.engine.globals = p.engine.scopes.lookup p.engine.globals)
    (hpass : q.engine.reactor.pass = p.engine.reactor.pass)
    (hregistry : q.engine.reactor.registry = if q.machine.endValue?.isSome then
      (Pass.opened a).engine.reactor.registry.markObserved (Pass.opened a).setting.snapshot
      else (Pass.opened a).engine.reactor.registry) : a.Advanced q where
  setting := hsetting.trans h.setting
  program := halike.program.trans h.program
  outer := by rw [halike.globals, houter, h.outer]
  policy := by rw [halike.config, h.policy]
  stopped := halike.stopped.trans h.stopped
  registry := hregistry
  pass := hpass.trans h.pass

theorem tick (h : a.Advanced p) (hr : Stage.Regular (.busy a p)) (hh : p.engine.Housed) :
    a.Advanced p.tick := by
  obtain ⟨⟨t, r⟩, ⟨o, -⟩ | hp⟩ := hr
  · have hregistry := h.registry
    rw [endValue?_of_isRunning o.isRunning] at hregistry
    have hlistening : p.next.Listening p.setting :=
      (Listening.invariant _).tick o.listening p.engine.abortRequested
    have hsame := subscribeAll r o hlistening
    obtain ⟨hsetting, ⟨ho, he⟩ | ⟨hq, hd | ⟨k, v, hc⟩⟩⟩ := o.tick fun _ _ _ => trivial
    · refine h.follow hsetting (he ▸ ⟨rfl, rfl, rfl, rfl⟩) (by rw [he]) (by rw [he]) ?_
      rw [he, endValue?_of_isRunning ho.isRunning]
      exact hregistry
    · refine h.follow hsetting hd.alike (by rw [hd.scopes]) (by rw [hd.reactor]; rfl) ?_
      rw [hd.endValue?_eq_none, hd.reactor]
      exact hsame.trans hregistry
    · have kept : p.next.Preserves p.engine.scopes :=
        (Preserves.invariant (o.globals ▸ hh.globals)).tick (o.preserves hh) _
      have houter : p.tick.engine.scopes.lookup p.engine.globals =
          p.engine.scopes.lookup p.engine.globals := by
        funext name
        rw [hc.scopes]
        exact kept.kept.lookup hh.nested kept.nested name _ hh.globals
      refine h.follow hsetting hc.alike houter ?_ ?_
      · rw [hc.reactor, Reactor.commit_pass]
      · rw [hc.endValue?, hc.reactor, Reactor.commit_registry, hsame, hregistry, h.setting]
        rfl
  · rw [hp.tick]
    exact h

/-- A pass that is given up has done nothing; one that is over is left as it is. -/
theorem abandon (h : a.Advanced p) (hr : Stage.Regular (.busy a p)) : a.Advanced p.abandon := by
  obtain ⟨⟨t, r⟩, ⟨o, -⟩ | hp⟩ := hr
  · have hregistry := h.registry
    rw [endValue?_of_isRunning o.isRunning] at hregistry
    have hnone : (p.close Pass.drop).machine.endValue? = none :=
      endValue?_of_isRunning (m := { p.machine with record := .empty }) o.isRunning
    rw [Pass.abandon, o.unfinished]
    refine h.follow rfl ⟨rfl, rfl, rfl, rfl⟩ rfl rfl ?_
    rw [if_neg Bool.false_ne_true, hnone]
    exact (subscribeAll r o o.listening).trans hregistry
  · rw [Pass.abandon, if_pos hp.finished]
    exact h

end Engine.Advanced

namespace Stage

/-- Stages that two sessions come to by the same operations if their configurations differ in nothing
but the number of values that are kept. A pass may take another number of ticks in the other session;
in the end both passes have committed or neither has. -/
inductive Alongside (admits : Tree → Prop) (fair : Pass → Prop) : Stage → Stage → Prop where
  | new {t catalog config capacity a b} (ht : admits t) (ha : Engine.new t catalog config = .ok a)
    (hb : Engine.new t catalog { config with cacheCapacity := capacity } = .ok b) :
    Alongside admits fair (idle a) (idle b)
  | addEvent {a b a' b' stream v} (h : Alongside admits fair (idle a) (idle b))
    (ha : a.addEvent stream v = .ok a') (hb : b.addEvent stream v = .ok b') :
    Alongside admits fair (idle a') (idle b')
  | setAvailable {a b a' b' stream available} (h : Alongside admits fair (idle a) (idle b))
    (ha : a.setAvailable stream available = .ok a') (hb : b.setAvailable stream available = .ok b') :
    Alongside admits fair (idle a') (idle b')
  | defineGlobal {a b} (h : Alongside admits fair (idle a) (idle b)) (name : String) (v : Value) :
    Alongside admits fair (idle (a.defineGlobal name v)) (idle (b.defineGlobal name v))
  | replaceTree {a b t} (h : Alongside admits fair (idle a) (idle b)) (ht : admits t) :
    Alongside admits fair (idle (a.replaceTree t)) (idle (b.replaceTree t))
  | start {a b p q} (h : Alongside admits fair (idle a) (idle b)) (hp : Pass.start a = .ok p)
    (hq : Pass.start b = .ok q) : Alongside admits fair (busy a p) (busy b q)
  | tickLeft {a b p q} (h : Alongside admits fair (busy a p) (busy b q)) (hf : fair p) :
    Alongside admits fair (busy a p.tick) (busy b q)
  | tickRight {a b p q} (h : Alongside admits fair (busy a p) (busy b q)) (hf : fair q) :
    Alongside admits fair (busy a p) (busy b q.tick)
  | sendDuring {a b p q e e' stream v} (h : Alongside admits fair (busy a p) (busy b q))
    (hp : p.engine.send stream v = .ok e) (hq : q.engine.send stream v = .ok e') :
    Alongside admits fair (busy a { p with engine := e }) (busy b { q with engine := e' })
  | requestAbort {a b p q} (h : Alongside admits fair (busy a p) (busy b q)) :
    Alongside admits fair (busy a { p with engine := p.engine.requestAbort })
      (busy b { q with engine := q.engine.requestAbort })
  | leave {a b p q} (h : Alongside admits fair (busy a p) (busy b q))
    (hc : p.machine.endValue?.isSome = q.machine.endValue?.isSome) :
    Alongside admits fair (idle p.abandon.engine) (idle q.abandon.engine)

namespace Alongside

variable {admits : Tree → Prop} {fair : Pass → Prop} {s s' : Stage} {a b : Engine} {p q : Pass}

/-- Both stages are reached in sessions of their own. -/
theorem reached (h : Alongside admits fair s s') : Reached admits fair s ∧ Reached admits fair s' := by
  induction h with
  | new ht ha hb => exact ⟨.new ht ha, .new ht hb⟩
  | addEvent _ ha hb ih => exact ⟨ih.1.step (.addEvent ha), ih.2.step (.addEvent hb)⟩
  | setAvailable _ ha hb ih => exact ⟨ih.1.step (.setAvailable ha), ih.2.step (.setAvailable hb)⟩
  | defineGlobal _ name v ih => exact ⟨ih.1.step (.defineGlobal name v), ih.2.step (.defineGlobal name v)⟩
  | replaceTree _ ht ih => exact ⟨ih.1.step (.replaceTree ht), ih.2.step (.replaceTree ht)⟩
  | start _ hp hq ih => exact ⟨ih.1.step (.start hp), ih.2.step (.start hq)⟩
  | tickLeft _ hf ih => exact ⟨ih.1.step (.tick hf), ih.2⟩
  | tickRight _ hf ih => exact ⟨ih.1, ih.2.step (.tick hf)⟩
  | sendDuring _ hp hq ih => exact ⟨ih.1.step (.sendDuring hp), ih.2.step (.sendDuring hq)⟩
  | requestAbort _ ih => exact ⟨ih.1.step .requestAbort, ih.2.step .requestAbort⟩
  | leave _ _ ih => exact ⟨ih.1.step .leave, ih.2.step .leave⟩

theorem mono {admits' : Tree → Prop} {fair' : Pass → Prop} (ha : ∀ t, admits t → admits' t)
    (hf : ∀ p, fair p → fair' p) (h : Alongside admits fair s s') : Alongside admits' fair' s s' := by
  induction h with
  | new ht h h' => exact .new (ha _ ht) h h'
  | addEvent _ h h' ih => exact ih.addEvent h h'
  | setAvailable _ h h' ih => exact ih.setAvailable h h'
  | defineGlobal _ name v ih => exact ih.defineGlobal name v
  | replaceTree _ ht ih => exact ih.replaceTree (ha _ ht)
  | start _ h h' ih => exact ih.start h h'
  | tickLeft _ h ih => exact ih.tickLeft (hf _ h)
  | tickRight _ h ih => exact ih.tickRight (hf _ h)
  | sendDuring _ h h' ih => exact ih.sendDuring h h'
  | requestAbort _ ih => exact ih.requestAbort
  | leave _ h ih => exact ih.leave h

/-- Both passes run to their ends, in as many ticks as each of them takes. -/
theorem toEnd (h : Alongside admits fair (busy a p) (busy b q)) (hp : p.machine.isRunning = true)
    (hq : q.machine.isRunning = true) (fp : ∀ k, fair (Nat.iterate Pass.tick k p))
    (fq : ∀ k, fair (Nat.iterate Pass.tick k q)) :
    Alongside admits fair (busy a p.toEnd) (busy b q.toEnd) := by
  have left (n : Nat) : Alongside admits fair (busy a (Nat.iterate Pass.tick n p)) (busy b q) := by
    induction n with
    | zero => exact h
    | succ n ih =>
      rw [Function.iterate_succ_apply']
      exact ih.tickLeft (fp n)
  have right (n m : Nat) : Alongside admits fair (busy a (Nat.iterate Pass.tick n p))
      (busy b (Nat.iterate Pass.tick m q)) := by
    induction m with
    | zero => exact left n
    | succ m ih =>
      rw [Function.iterate_succ_apply']
      exact ih.tickRight (fq m)
  have hends := right (p.setting.budget + 2) (q.setting.budget + 2)
  rwa [Pass.iterate_tick _ hp, Pass.iterate_tick _ hq] at hends

/-- A whole pass of both engines, if none refuses it. -/
theorem passed (h : Alongside admits fair (idle a) (idle b))
    (ha : a.stopped = false ∧ a.config.conflictPolicy = .attach)
    (hb : b.stopped = false ∧ b.config.conflictPolicy = .attach)
    (fa : ∀ k, fair (Nat.iterate Pass.tick k (Pass.opened a)))
    (fb : ∀ k, fair (Nat.iterate Pass.tick k (Pass.opened b))) :
    Alongside admits fair (busy a (Pass.opened a).toEnd) (busy b (Pass.opened b).toEnd) :=
  (h.start (Pass.start_eq_opened ha.1 ha.2) (Pass.start_eq_opened hb.1 hb.2)).toEnd rfl rfl fa fb

/-- The engines that two passes were started on are reached as well, one beside the other. -/
theorem before (h : Alongside admits fair s s') : ∀ {a b p q}, s = busy a p → s' = busy b q →
    Alongside admits fair (idle a) (idle b) := by
  induction h with
  | start h _ _ _ =>
    rintro _ _ _ _ ⟨⟩ ⟨⟩
    exact h
  | tickLeft _ _ ih =>
    rintro _ _ _ _ ⟨⟩ ⟨⟩
    exact ih rfl rfl
  | tickRight _ _ ih =>
    rintro _ _ _ _ ⟨⟩ ⟨⟩
    exact ih rfl rfl
  | sendDuring _ _ _ ih =>
    rintro _ _ _ _ ⟨⟩ ⟨⟩
    exact ih rfl rfl
  | requestAbort _ ih =>
    rintro _ _ _ _ ⟨⟩ ⟨⟩
    exact ih rfl rfl
  | _ => exact fun h => nomatch h

end Alongside

/-- What two sessions have in common that go side by side. -/
def Twins : Stage → Stage → Prop
  | idle a, idle b => a.Twin b
  | busy a p, busy b q => a.Twin b ∧ a.Advanced p ∧ b.Advanced q ∧ q.inbox = p.inbox
  | _, _ => False

/-- Over accepted trees, sessions side by side stay twins. -/
theorem Alongside.twins {fair : Pass → Prop} {s s' : Stage}
    (h : Alongside Tree.Accepted fair s s') : s.Twins s' := by
  induction h with
  | new ht ha hb =>
    rw [Engine.eq_load_of_new ha, Engine.eq_load_of_new hb]
    exact ⟨rfl, rfl, rfl, rfl, rfl, rfl, rfl⟩
  | addEvent _ ha hb ih => exact Engine.Twin.addEvent ih ha hb
  | setAvailable _ ha hb ih => exact Engine.Twin.setAvailable ih ha hb
  | defineGlobal h name v ih =>
    exact Engine.Twin.defineGlobal ih h.reached.1.housed.2 h.reached.2.housed.2 name v
  | replaceTree _ ht ih => exact Engine.Twin.replaceTree ih _
  | start _ hp hq ih =>
    obtain ⟨-, rfl⟩ := Pass.start_eq_ok hp
    obtain ⟨-, rfl⟩ := Pass.start_eq_ok hq
    exact ⟨ih, .opened _, .opened _, (Engine.Twin.opened ih).inbox⟩
  | tickLeft h _ ih =>
    obtain ⟨hr, hh⟩ := h.reached.1.housed
    exact ⟨ih.1, ih.2.1.tick hr hh, ih.2.2.1, ih.2.2.2.trans (Pass.inbox_tick _).symm⟩
  | tickRight h _ ih =>
    obtain ⟨hr, hh⟩ := h.reached.2.housed
    exact ⟨ih.1, ih.2.1, ih.2.2.1.tick hr hh, (Pass.inbox_tick _).trans ih.2.2.2⟩
  | sendDuring _ hp hq ih =>
    refine ⟨ih.1, ih.2.1.sendDuring hp, ih.2.2.1.sendDuring hq, ?_⟩
    obtain ⟨i, hi, rfl⟩ := Engine.inbox_of_send hp
    obtain ⟨j, hj, rfl⟩ := Engine.inbox_of_send hq
    have hinbox : _ = _ := ih.2.2.2
    rw [Pass.inbox, Pass.inbox] at hinbox
    rw [hinbox, hi] at hj
    exact (Except.ok.inj hj).symm
  | requestAbort _ ih => exact ⟨ih.1, ih.2.1.requestAbort, ih.2.2.1.requestAbort, ih.2.2.2⟩
  | leave h hc ih =>
    refine Engine.Twin.advanced ih.1 (ih.2.1.abandon h.reached.1.housed.1)
      (ih.2.2.1.abandon h.reached.2.housed.1) ?_ ?_
    · rw [Pass.inbox_abandon, Pass.inbox_abandon, ih.2.2.2]
    · rw [Pass.endValue?_abandon, Pass.endValue?_abandon, hc]

end Stage
end StreamLang
