import Mathlib.Tactic.MkIffOfInductiveProp
import StreamLang.Proofs.Engine.Passes
import StreamLang.Proofs.Reuse.OutOfDate
/-!
When invalidations are lost. In a session over plain trees, with conditionals of any shape, a reader
that is out of date is dirty at every stage, unless a commit sweeps such a reader clean: it lies
below a node that was found up to date, the pass did not write it, and all on the way to it was
marked.
-/
namespace StreamLang

open Machine

namespace Engine

/-- A reader of a stream whose committed value is not what its stream shows now. -/
def OutOfDate (e : Engine) (i : NodeId) : Prop :=
  e.reactor.OutOfDate e.program.tree e.config.unavailablePolicy i

/-- Every reader that is out of date is marked dirty. -/
def Accounted (e : Engine) : Prop :=
  ∀ i, e.OutOfDate i → e.reactor.staleness.mark? i = some .dirty

/-- What holds of an engine throughout a session. -/
structure Alert (e : Engine) (t : Tree) : Prop where
  program : e.program = .ofTree t
  plain : t.Plain
  running : e.stopped = false
  reactor : e.reactor.Alert t

variable {e e' : Engine} {t : Tree}

theorem Alert.tree (h : e.Alert t) : e.program.tree = t := by
  rw [h.program]
  rfl

theorem Alert.between (h : e.Alert t) (hb : e.Between t e') : e'.Alert t :=
  ⟨hb.alike.program.trans h.program, h.plain, hb.alike.stopped.trans h.running,
    h.reactor.between h.plain.ordered hb.reactor⟩

theorem Accounted.between (ha : e.Accounted) (h : e.Alert t) (hb : e.Between t e') :
    e'.Accounted := by
  have ha : e.reactor.Accounted e.program.tree e.config.unavailablePolicy := ha
  have key : e'.reactor.Accounted e'.program.tree e'.config.unavailablePolicy := by
    rw [h.tree] at ha
    rw [hb.alike.program, hb.alike.config, h.tree]
    exact ha.between h.plain.ordered h.reactor hb.reactor
  exact key

theorem alert_reset (hp : e.program = .ofTree t) (ht : t.Plain) (hs : e.stopped = false) :
    e.reset.Alert t ∧ e.reset.Accounted := by
  have hr : e.reset.reactor = e.reactor.invalidate.subscribeReaders (.ofTree t) := by
    simp only [reset, hs, hp]
    rfl
  refine ⟨⟨hp, ht, hs, ?_⟩, ?_⟩
  · rw [hr]
    exact Reactor.Alert.fresh t rfl
  · exact Reactor.accounted_of_empty (r := e.reset.reactor) (by rw [hr]; rfl)

theorem alert_new {catalog : Catalog} {config : Config} (ht : t.Plain)
    (h : Engine.new t catalog config = .ok e) : e.Alert t ∧ e.Accounted := by
  obtain ⟨config', rfl⟩ := new_eq_ok h
  exact ⟨⟨rfl, ht, rfl, Reactor.Alert.fresh t rfl⟩, Reactor.accounted_of_empty rfl⟩

end Engine

namespace Pass

variable {p : Pass} {before : Engine} {t : Tree} {k : Nat} {v : Value}

/-- All that a concluded pass has written for stream readers is what their streams show. -/
theorem Concluded.reads {P : NodeId → Value → Prop} (hc : p.Concluded before P k v)
    (ht : p.setting.program.tree = t) (plain : t.Plain) (hroot : p.setting.root = t.root) :
    p.setting.Reads p.next.record := by
  have hv := hc.value
  rw [hc.eq] at hv
  obtain ⟨n, version, σ', he, hm⟩ := enters_of_run hc.allowed hv
  have hr := he.reads ht plain (hroot ▸ plain.root_lt) .empty
  rw [hc.eq, hm]
  exact hr.of_writes rfl

variable (o : p.Open before fun _ _ => True) (h : p.engine.Alert t)
  (hc : p.Committed p.tick before (fun _ _ => True) k v)
include o h hc

theorem alert_of_committed : p.tick.engine.Alert t := by
  refine ⟨hc.alike.program.trans h.program, h.plain, hc.alike.stopped.trans h.running, ?_⟩
  rw [hc.reactor, h.tree]
  exact h.reactor.commit h.plain.ordered o.snapshot

theorem accounted_of_committed (ha : p.engine.Accounted)
    (hs : ∀ i, p.tick.engine.OutOfDate i → ¬ p.Sweeps i) : p.tick.engine.Accounted := by
  have htree : p.setting.program.tree = t := by rw [o.program, h.tree]
  have hroot : p.setting.root = t.root := by rw [o.root, h.tree]
  have hreads := hc.concluded.reads htree h.plain hroot
  have hreactor := hc.reactor
  rw [h.tree] at hreactor
  have outOfDate (i : NodeId) : p.tick.engine.OutOfDate i ↔
      (p.engine.reactor.commit t p.setting.snapshot p.next.record).OutOfDate t p.setting.policy i := by
    rw [Engine.OutOfDate, hc.alike.program, hc.alike.config, h.tree, hreactor, o.policy]
  have ha : p.engine.reactor.Accounted t p.setting.policy := by
    intro i hi
    refine ha i ?_
    rw [Engine.OutOfDate, h.tree, ← o.policy]
    exact hi
  have key := Reactor.accounted_commit h.plain.ordered htree hreads o.snapshot ha fun i hi hsweep =>
    hs i ((outOfDate i).2 hi) ⟨o.unfinished, by simp [hc.concluded.value], by rw [h.tree]; exact hsweep⟩
  intro i hi
  rw [hreactor]
  exact key i ((outOfDate i).1 hi)

omit hc in
theorem not_accounted_of_sweeps {i : NodeId} (hi : p.tick.engine.OutOfDate i) (hs : p.Sweeps i) :
    ¬ p.tick.engine.Accounted := by
  intro ha
  obtain ⟨-, hv, hs⟩ := hs
  obtain ⟨v, hv⟩ := Option.isSome_iff_exists.1 hv
  obtain ⟨k, hc⟩ := o.committed (fun _ _ _ => trivial) hv
  have hdirty := ha i hi
  rw [hc.reactor, Reactor.mark?_of_sweeps (h.tree.symm ▸ h.plain.ordered) hs] at hdirty
  cases hdirty

end Pass

namespace Stage

/-- What holds at every stage of a session. -/
def Alert : Stage → Prop
  | idle e => ∃ t, e.Alert t
  | busy before p => (∃ t, p.engine.Alert t) ∧ (p.Open before (fun _ _ => True) ∨ p.Settled)

/-- The step commits a pass and sweeps a reader clean that is out of date. -/
def Loses (s s' : Stage) : Prop :=
  ∃ before p i, s = busy before p ∧ s' = busy before p.tick ∧ p.tick.engine.OutOfDate i ∧ p.Sweeps i

variable {fair : Pass → Prop} {s s' : Stage}

/-- Every step keeps readers accounted for, unless it loses one. -/
theorem Alert.step (h : s.Alert) (hs : Stage.Step Tree.Plain fair s s') :
    s'.Alert ∧ (s.engine.Accounted → ¬ Loses s s' → s'.engine.Accounted) := by
  cases hs with
  | addEvent hs =>
    obtain ⟨t, h⟩ := h
    have hb := Engine.between_addEvent t hs
    exact ⟨⟨t, h.between hb⟩, fun ha _ => ha.between h hb⟩
  | setAvailable hs =>
    obtain ⟨t, h⟩ := h
    have hb := Engine.between_setAvailable h.program hs
    exact ⟨⟨t, h.between hb⟩, fun ha _ => ha.between h hb⟩
  | @defineGlobal e name v =>
    obtain ⟨t, h⟩ := h
    obtain ⟨h, ha⟩ := Engine.alert_reset (e := { e with scopes := e.scopes.define e.globals name v })
      h.program h.plain h.running
    exact ⟨⟨t, h⟩, fun _ _ => ha⟩
  | @replaceTree e t' ht =>
    obtain ⟨t, h⟩ := h
    obtain ⟨h, ha⟩ := Engine.alert_reset (e := { e with program := .ofTree t', evaluations := ∅ })
      rfl ht h.running
    exact ⟨⟨t', h⟩, fun _ _ => ha⟩
  | start hs =>
    obtain ⟨t, h⟩ := h
    obtain ⟨-, rfl⟩ := Pass.start_eq_ok hs
    have hb := Engine.between_opened h.program
    exact ⟨⟨⟨t, h.between hb⟩, .inl (Pass.open_opened _)⟩, fun ha _ => ha.between h hb⟩
  | @tick before p hf =>
    obtain ⟨⟨t, h⟩, o | hp⟩ := h
    · obtain ⟨-, ⟨ho, he⟩ | ⟨hq, hd | ⟨k, v, hc⟩⟩⟩ := o.tick fun _ _ _ => trivial
      · refine ⟨⟨⟨t, he ▸ h⟩, .inl ho⟩, fun ha _ => ?_⟩
        rw [Stage.engine, he]
        exact ha
      · have hb := hd.engine t
        exact ⟨⟨⟨t, h.between hb⟩, .inr hq⟩, fun ha _ => ha.between h hb⟩
      · refine ⟨⟨⟨t, Pass.alert_of_committed o h hc⟩, .inr hq⟩, fun ha hl => ?_⟩
        exact Pass.accounted_of_committed o h hc ha fun i hi hs => hl ⟨before, p, i, rfl, rfl, hi, hs⟩
    · rw [hp.tick]
      exact ⟨⟨⟨t, h⟩, .inr hp⟩, fun ha _ => ha⟩
  | @sendDuring before p e' stream v hs =>
    obtain ⟨⟨t, h⟩, hp⟩ := h
    have hb := Engine.between_send t hs
    refine ⟨⟨⟨t, h.between hb⟩, ?_⟩, fun ha _ => ha.between h hb⟩
    exact hp.imp (fun o => o.sendDuring hs) fun hp => ⟨hp.finished, hp.ended⟩
  | @requestAbort before p =>
    obtain ⟨⟨t, h⟩, hp⟩ := h
    have hb := Engine.between_requestAbort t p.engine
    refine ⟨⟨⟨t, h.between hb⟩, ?_⟩, fun ha _ => ha.between h hb⟩
    exact hp.imp (fun o => o.requestAbort) fun hp => ⟨hp.finished, hp.ended⟩
  | @leave before p =>
    obtain ⟨⟨t, h⟩, o | hp⟩ := h
    · have hb := o.abandon t
      exact ⟨⟨t, h.between hb⟩, fun ha _ => ha.between h hb⟩
    · rw [Pass.abandon, if_pos hp.finished]
      exact ⟨⟨t, h⟩, fun ha _ => ha⟩

theorem Reached.alert (h : Reached Tree.Plain fair s) : s.Alert :=
  h.induction (fun t _ _ _ ht he => ⟨t, (Engine.alert_new ht he).1⟩) fun _ _ h hs => (h.step hs).1

end Stage

/-- No invalidation is lost in a session if and only if no commit of it sweeps clean a stream reader
that is out of date. -/
theorem Session.accounted_iff {fair : Pass → Prop} {stages : List Stage}
    (h : Session Tree.Plain fair stages) : (∀ s ∈ stages, s.engine.Accounted) ↔
      ∀ before p, [.busy before p.tick, .busy before p] <:+: stages →
        ∀ i, p.tick.engine.OutOfDate i → ¬ p.Sweeps i := by
  constructor
  · intro ha before p hp i hi hs
    have hmem : .busy before p ∈ stages := hp.subset (List.mem_cons_of_mem _ List.mem_cons_self)
    obtain ⟨⟨t, halert⟩, o | hq⟩ := (h.reached _ hmem).alert
    · exact Pass.not_accounted_of_sweeps o halert hi hs (ha _ (hp.subset List.mem_cons_self))
    · exact absurd hs.1 (by simp [hq.finished])
  · intro hl
    induction h with
    | new ht he =>
      intro s hs
      obtain rfl := List.mem_singleton.1 hs
      exact (Engine.alert_new ht he).2
    | @step s s' past h hs ih =>
      have before := ih fun before p hp => hl before p (hp.trans (List.suffix_cons _ _).isInfix)
      intro x hx
      rcases List.mem_cons.1 hx with rfl | hx
      · refine ((h.reached s List.mem_cons_self).alert.step hs).2 (before s List.mem_cons_self) ?_
        rintro ⟨b, p, i, rfl, rfl, hi, hsweep⟩
        exact hl b p ⟨[], past, rfl⟩ i hi hsweep
      · exact before x hx

/-! A bind that stays the same, and two streams of which one is read in a branch only. -/

namespace Lost

def draft : Draft :=
  ⟨#[⟨.stream "p", [], none, none⟩, ⟨.boolean false, [], none, none⟩,
    ⟨.binary [.and], [0, 1], none, none⟩, ⟨.bind "b", [2], none, none⟩,
    ⟨.stream "c", [], none, none⟩, ⟨.reference "b", [], none, none⟩,
    ⟨.stream "s", [], none, none⟩, ⟨.list, [5, 6], none, none⟩, ⟨.text "none", [], none, none⟩,
    ⟨.conditional, [4, 7, 8], none, none⟩, ⟨.block, [3, 9], none, none⟩]⟩

def tree : Tree := ((draft.finish 10).toOption).getD ⟨#[], 0⟩

def catalog : Catalog :=
  ⟨[("c", ⟨"c", .push, .boolean, .boolean true⟩), ("s", ⟨"s", .push, .text, .text "old"⟩),
    ("p", ⟨"p", .push, .boolean, .boolean true⟩)]⟩

/-- The engine before its first pass. -/
def fresh : Engine := .load tree catalog .default

/-- The branch is left, and then its stream changes. -/
def left : Engine := ((fresh.passed.told "c" (.boolean false)).told "s" (.text "new")).passed

/-- What the bind is made of has changed, but not the bind. -/
def doubtful : Engine := left.told "p" (.boolean false)

/-- What can be read off the program and its three passes. -/
@[mk_iff]
structure Checked : Prop where
  built : draft.finish 10 = .ok tree
  kinds : tree.nodes.all (·.kind.isPlain) = true
  told : ((fresh.passed.addEvent "c" (.boolean false)).toOption.isSome = true ∧
    ((fresh.passed.told "c" (.boolean false)).addEvent "s" (.text "new")).toOption.isSome = true) ∧
    (left.addEvent "p" (.boolean false)).toOption.isSome = true
  ready : ∀ e ∈ [(fresh.passed.told "c" (.boolean false)).told "s" (.text "new"), doubtful],
    e.stopped = false ∧ e.config.conflictPolicy = .attach
  node : (Pass.opened doubtful).toEnd.engine.program.tree.node? 6 =
    some ⟨.stream "s", [], some 7, none⟩
  kept : ((Pass.opened doubtful).toEnd.engine.value? 6).any (·.equal (.text "old")) = true
  read : (((Pass.opened doubtful).toEnd.engine.reactor.view
    (Pass.opened doubtful).toEnd.engine.config.unavailablePolicy).reading 6 "s" .latest).equal
      (.text "new") = true
  known : ((Pass.opened doubtful).toEnd.engine.reactor.registry.stream? "s").isSome = true
  unmarked : (Pass.opened doubtful).toEnd.engine.reactor.staleness.mark? 6 = none

theorem checked : Checked := checked_iff.2 (by decide +kernel)

theorem plain : tree.Plain := .of_all checked.built checked.kinds

theorem reached : Stage.Reached Tree.Plain (fun _ => True)
    (.busy doubtful (Pass.opened doubtful).toEnd) := by
  have pass {e : Engine} (h : Stage.Reached Tree.Plain (fun _ => True) (.idle e))
      (hs : e.stopped = false) (hc : e.config.conflictPolicy = .attach) :
      Stage.Reached Tree.Plain (fun _ => True) (.busy e (Pass.opened e).toEnd) :=
    h.passed hs hc fun _ => trivial
  have hnew : Engine.new tree catalog .default = .ok fresh := rfl
  have new : Stage.Reached Tree.Plain (fun _ => True) (.idle fresh) :=
    .new plain hnew
  have first : Stage.Reached Tree.Plain (fun _ => True) (.idle fresh.passed) :=
    (pass new rfl rfl).step .leave
  have second := (first.told "c" (.boolean false) checked.told.1.1).told "s" (.text "new")
    checked.told.1.2
  obtain ⟨hs, hc⟩ := checked.ready _ List.mem_cons_self
  have third : Stage.Reached Tree.Plain (fun _ => True) (.idle left) :=
    (pass second hs hc).step .leave
  obtain ⟨hs, hc⟩ := checked.ready doubtful (List.mem_cons_of_mem _ List.mem_cons_self)
  exact pass (third.told "p" (.boolean false) checked.told.2) hs hc

theorem outOfDate : (Pass.opened doubtful).toEnd.engine.OutOfDate 6 := by
  have hv := checked.read
  obtain ⟨u, hu, hold⟩ := (Option.any_eq_true _ _).1 checked.kept
  refine ⟨⟨.stream "s", [], some 7, none⟩, "s", u, ⟨?_, rfl, rfl⟩, rfl, ?_, hu, ?_⟩
  · exact checked.node
  · exact checked.known
  · intro heq
    rw [← heq] at hv
    cases u <;> simp [Value.equal] at hold hv
    simp [hold] at hv

theorem unmarked : (Pass.opened doubtful).toEnd.engine.reactor.staleness.mark? 6 = none :=
  checked.unmarked

theorem not_accounted : ¬ (Stage.busy doubtful (Pass.opened doubtful).toEnd).engine.Accounted := by
  rw [Stage.engine_busy]
  intro h
  have hdirty := h 6 outOfDate
  rw [unmarked] at hdirty
  cases hdirty

end Lost

/-- The reader in the branch that was left is out of date and has no mark. -/
theorem Stage.Reached.exists_not_accounted :
    ¬ ∀ s, Stage.Reached Tree.Plain (fun _ => True) s → s.engine.Accounted :=
  fun h => Lost.not_accounted (h _ Lost.reached)

/-- So some commit of that session has swept a reader clean that was out of date. -/
theorem Session.exists_sweeps : ∃ past,
    Session Tree.Plain (fun _ => True)
      (.busy Lost.doubtful (Pass.opened Lost.doubtful).toEnd :: past) ∧
    ∃ before p i, [.busy before p.tick, .busy before p] <:+:
      .busy Lost.doubtful (Pass.opened Lost.doubtful).toEnd :: past ∧
        p.tick.engine.OutOfDate i ∧ p.Sweeps i := by
  obtain ⟨past, h⟩ := Session.exists_of_reached Lost.reached
  refine ⟨past, h, ?_⟩
  by_contra hno
  refine Lost.not_accounted ((Session.accounted_iff h).2 ?_ _ List.mem_cons_self)
  exact fun before p hp i hi hs => hno ⟨before, p, i, hp, hi, hs⟩

end StreamLang
