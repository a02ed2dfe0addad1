import StreamLang.Proofs.Engine.Bodies
import StreamLang.Proofs.Machine.Initialized
/-!
The state of a reaction lasts. Eviction spares it, every commit keeps it or puts the next one in its place,
and a pass that does not commit leaves it alone. All that a pass reads of it is the state before the pass,
and its first part is not run again, unless as the body of a function that was kept from another program.
-/
namespace StreamLang

/-! ### What a commit keeps -/

namespace Reactor

variable {r : Reactor} {i : NodeId}

/-- A commit takes no state away from a reaction. -/
theorem commit_has_of_reaction {t : Tree} {q : Closure → Prop} (h : r.Confined t q)
    (hi : t.kind? i = some .reaction) (seen : Snapshot) {done : Record}
    (reactions : ∀ x ∈ done.writes, x.2.reaction = (t.kind? x.1 == some .reaction))
    (hhas : r.cache.has i = true) : (r.commit t seen done).cache.has i = true := by
  obtain ⟨e, he, hreaction⟩ : ∃ e,
      (r.applyWrites seen.pass done.writes).cache.find? i = some e ∧ e.reaction = true := by
    rcases r.applyWrites_cache seen.pass done.writes i with ⟨w, hm, hw⟩ | ⟨-, hw⟩
    · have hreaction : w.reaction = true := by simpa [hi] using reactions _ hm
      exact ⟨_, hw, hreaction⟩
    · obtain ⟨e, he⟩ := Option.isSome_iff_exists.1 hhas
      exact ⟨e, hw.trans he, by simpa [hi] using h.reactions i e he⟩
  suffices hcommit : (r.commit t seen done).cache.find? i = some e by
    rw [Cache.has, hcommit]
    rfl
  have evicted (a : Reactor) (ha : a.cache.find? i = some e) : a.evictOver.cache.find? i = some e := by
    unfold evictOver
    split
    · exact ha
    · exact (a.cache.evict_cut _).find?_of_reaction ha hreaction
  exact evicted _ he

end Reactor

/-! ### The state -/

namespace Stage

variable {t : Tree} {r first : NodeId} {s s' : Stage}

/-- The reaction has a state. In a pass it had one before, and it is that one that the pass finds. -/
def Stateful (r : NodeId) : Stage → Prop
  | idle e => e.reactor.cache.has r = true
  | busy before p => p.engine.reactor.cache.has r = true ∧ before.reactor.cache.has r = true ∧
    p.setting.cache = before.reactor.cache

theorem Stateful.engine (h : s.Stateful r) : s.engine.reactor.cache.has r = true := by
  cases s with
  | idle e => exact h
  | busy before p => exact h.1

/-- As long as no global is defined, the reaction has a state. -/
theorem Stateful.proceeds {sent : Value → Prop} (h : s.Stateful r) (regular : s.Regular)
    (confined : s.Confined t (fun _ => True) fun _ => True) (hr : t.kind? r = some .reaction)
    (hs : Proceeds sent (fun _ => False) s s') : s'.Stateful r := by
  cases hs with
  | addEvent hs =>
    obtain ⟨inbox, -, rfl⟩ := Engine.inbox_of_send (Engine.send_of_addEvent hs)
    exact h
  | setAvailable hs =>
    obtain ⟨reactor, hreactor, rfl⟩ := Engine.setAvailable_eq_ok hs
    obtain ⟨readers, registry, -, rfl⟩ := Reactor.setAvailable_eq_ok hreactor
    exact h
  | defineGlobal name hv => exact hv.elim
  | @start e p hs =>
    obtain ⟨-, rfl⟩ := Pass.start_eq_ok hs
    have hcache : (e.reactor.beginPass e.program).2.cache = e.reactor.cache := by
      rw [Reactor.beginPass_eq]
    have hhas : (e.reactor.beginPass e.program).2.cache.has r = true := by
      rw [hcache]
      exact h
    exact ⟨hhas, h, hcache⟩
  | @tick before p =>
    obtain ⟨hhas, hbefore, hcache⟩ := h
    suffices htick : p.tick.engine.reactor.cache.has r = true from
      ⟨htick, hbefore, (congrArg Setting.cache Pass.setting_settle).trans hcache⟩
    obtain ⟨-, ⟨o, -⟩ | hp⟩ := regular
    · obtain ⟨-, ⟨-, heq⟩ | ⟨-, hd | ⟨k, v, hc⟩⟩⟩ := o.tick fun _ _ _ => trivial
      · rw [heq]
        exact hhas
      · rw [hd.reactor]
        exact hhas
      · have next := confined.next o (fun _ _ => trivial) fun _ _ _ _ _ _ _ => trivial
        have hreactions := next.reactions
        rw [o.program] at hreactions
        rw [hc.reactor]
        have hkind : p.engine.program.tree.kind? r = some .reaction := by
          rw [confined.1.tree]
          exact hr
        exact Reactor.commit_has_of_reaction (confined.1.tree ▸ confined.1.reactor) hkind _
          hreactions hhas
    · rw [Pass.Settled.tick hp]
      exact hhas
  | sendDuring hs =>
    obtain ⟨inbox, -, rfl⟩ := Engine.inbox_of_send hs
    exact h
  | requestAbort => exact h
  | @leave before p =>
    have hhas : p.engine.reactor.cache.has r = true := h.1
    show p.abandon.engine.reactor.cache.has r = true
    unfold Pass.abandon
    split
    · exact hhas
    · exact hhas

end Stage

/-! ### What is read of it -/

/-- The frame is that of a previous value that belongs to the reaction, and has just begun. -/
structure Frame.Recalls (t : Tree) (r : NodeId) (f : Frame) : Prop where
  begun : f.cursor = 0
  previous : ∃ n, t.Working f.node n ∧ n.kind = .previous
  reaction : t.enclosingReaction? f.node = some r

theorem Frame.Recalls.step {t : Tree} {r : NodeId} {f : Frame} (h : f.Recalls t r) :
    (t.steps f.node)[f.cursor]? = some (.apply (.previous r)) := by
  obtain ⟨n, hw, hk⟩ := h.previous
  simp only [hw.steps, hk, Tree.kindSteps, h.reaction, h.begun, List.getElem?_cons_zero]

/-- What it reads is the state that the pass has found. -/
theorem Machine.recall {s : Setting} {m : Machine} {f : Frame} {rest : List Frame} {r : NodeId}
    {v : Value} (hm : m.frames = f :: rest) (hf : f.steps[f.cursor]? = some (.apply (.previous r)))
    (hv : s.cache.value? r = some v) (started : m.started = true) {abort : Bool}
    (hr : (m.tick s abort).isRunning = true) :
    (m.tick s abort).frames = { f with cursor := f.cursor + 1 }.push v :: rest := by
  generalize hm' : m.tick s abort = m' at hr ⊢
  cases ticked hm' with
  | ended h =>
    rw [h] at hr
    cases hr
  | cutOff => cases hr
  | entered h =>
    rw [started] at h
    cases h
  | failed => cases hr
  | executed h ha =>
    rw [hm] at h
    obtain ⟨rfl, rfl⟩ := List.cons.inj h
    rw [hf] at ha
    obtain rfl := Option.some.inj ha
    simp only [execute, apply, hv]
    rfl

/-! ### The first part -/

namespace Stage

variable {t : Tree} {r first : NodeId} {s s' : Stage} {e : Engine}

/-- The first part of the reaction has not been run since the engine was at rest. -/
def LeavesOut (e : Engine) (r first : NodeId) : Stage → Prop
  | idle e' => e'.evaluations[first]? = e.evaluations[first]?
  | busy _ p => p.engine.evaluations[first]? = e.evaluations[first]? ∧ p.machine.LeavesOut r first

theorem LeavesOut.count (h : s.LeavesOut e r first) :
    s.engine.evaluationCount first = e.evaluationCount first := by
  have heq : s.engine.evaluations[first]? = e.evaluations[first]? := by
    cases s with
    | idle e' => exact h
    | busy before p => exact h.1
  rw [Engine.evaluationCount, heq]
  rfl

/-- As long as no function comes up that has the part for its body. -/
theorem LeavesOut.proceeds {sent defined : Value → Prop} {G : ScopeId → Prop} {q : Closure → Prop}
    (h : s.LeavesOut e r first) (regular : s.Regular) (confined : s.Confined t G q)
    (stateful : s.Stateful r) (ht : t.Accepted) (hr : t.kind? r = some .reaction)
    (hfirst : (t.children r).head? = some first) (hq : ∀ c, q c → c.body ≠ first)
    (hs : Proceeds sent defined s s') : s'.LeavesOut e r first := by
  cases hs with
  | addEvent hs =>
    obtain ⟨inbox, -, rfl⟩ := Engine.inbox_of_send (Engine.send_of_addEvent hs)
    exact h
  | setAvailable hs =>
    obtain ⟨reactor, -, rfl⟩ := Engine.setAvailable_eq_ok hs
    exact h
  | defineGlobal name hv => exact h
  | start hs =>
    obtain ⟨-, rfl⟩ := Pass.start_eq_ok hs
    exact ⟨h, .start _ r first⟩
  | @tick before p =>
    obtain ⟨heval, hm⟩ := h
    obtain ⟨-, ⟨o, -⟩ | hp⟩ := regular
    · have htree : p.setting.program.tree = t := by rw [o.program, confined.1.tree]
      have hroot : p.setting.root ≠ first := by
        rw [o.root, confined.1.tree]
        rintro rfl
        have hparent := ht.ordered.parent_iff.2 (List.mem_of_mem_head? hfirst)
        rw [ht.parent_root] at hparent
        cases hparent
      have hhas : p.setting.cache.has r = true := by
        rw [stateful.2.2]
        exact stateful.2.1
      have hnext : p.next.LeavesOut r first :=
        hm.tick (htree ▸ ht.ordered) (htree ▸ hr) (htree ▸ hfirst) hroot confined.2.listening hhas
          (fun f hf v hv => (confined.2.confined.values f hf v hv).mono hq) p.engine.abortRequested
      refine ⟨(Pass.evaluations_settle (p := { p with machine := p.next })
        hnext.untouched.record.run).trans heval, ?_⟩
      rcases Pass.machine_settle { p with machine := p.next } with hmachine | hmachine
      · have hmachine : p.tick.machine = p.next := hmachine
        exact hmachine ▸ hnext
      · have hmachine : p.tick.machine = { p.next with record := .empty } := hmachine
        rw [hmachine]
        exact ⟨hnext.skips.of_eq rfl, hnext.untouched.of_eq rfl (.empty first)⟩
    · rw [Pass.Settled.tick hp]
      exact ⟨heval, hm⟩
  | sendDuring hs =>
    obtain ⟨inbox, -, rfl⟩ := Engine.inbox_of_send hs
    exact h
  | requestAbort => exact h
  | leave => exact (Pass.evaluations_abandon h.2.untouched.record.run).trans h.1

end Stage

/-- Only a function has the part of a function node for its body. -/
theorem Tree.Ordered.makes_ne {t : Tree} {r first : NodeId} (o : t.Ordered)
    (hr : t.kind? r = some .reaction) (hfirst : (t.children r).head? = some first)
    (G : ScopeId → Prop) : t.Makes G fun c => c.body ≠ first ∧ G c.scope := by
  rintro i body parameters scope hk hb hscope
  refine ⟨?_, hscope⟩
  rintro rfl
  obtain rfl := o.parent_unique (hb ▸ List.mem_singleton_self _) (List.mem_of_mem_head? hfirst)
  rw [hr] at hk
  cases hk

namespace Stretch

variable {sent : List Stage → Value → Prop} {e : Engine} {t : Tree} {stages : List Stage}
  {r first : NodeId}

/-- Without new globals every reaction that has a state keeps one. -/
theorem stateful (h : Stretch sent (fun _ _ => False) e stages) (regular : (Stage.idle e).Regular)
    (confined : e.Confined t (fun _ => True) fun _ => True) (hr : t.kind? r = some .reaction)
    (hstate : (e.value? r).isSome = true) : ∀ s ∈ stages, s.Stateful r := by
  have hhas : e.reactor.cache.has r = true := by
    rwa [Engine.value?, Cache.value?, Option.isSome_map] at hstate
  refine h.induction hhas fun s s' past h ih hstep => ?_
  have all := h.confined regular confined (fun _ _ _ _ _ _ => trivial) (fun _ _ _ hv => hv.elim)
    (fun _ _ => trivial) fun _ _ _ _ _ _ _ => trivial
  exact ih.proceeds (h.regular regular s List.mem_cons_self) (all s List.mem_cons_self) hr hstep

/-- If moreover no function that was kept has the first part of the reaction for its body, it is not run. -/
theorem leavesOut (h : Stretch Known (fun _ _ => False) e stages) (regular : (Stage.idle e).Regular)
    (ht : t.Accepted) (confined : e.Confined t (fun _ => True) fun _ => True)
    (hr : t.kind? r = some .reaction) (hfirst : (t.children r).head? = some first)
    (hstate : (e.value? r).isSome = true) (apart : ∀ c, e.Keeps c → c.body ≠ first) :
    ∀ s ∈ stages, s.LeavesOut e r first := by
  have he : e.Confined t e.Opens fun c => c.body ≠ first ∧ e.Opens c.scope :=
    confined.tree ▸ Engine.confined_of_keeps apart (confined.tree ▸ confined.reactor.reactions)
  refine h.induction (C := fun s => s.LeavesOut e r first) rfl fun s s' past h ih hstep => ?_
  have all := h.confined regular he (fun _ _ all hv => hv.every all) (fun _ _ _ hv => hv.elim)
    (fun _ hc => hc.2) (ht.ordered.makes_ne hr hfirst _)
  have stateful := h.stateful regular confined hr hstate
  exact ih.proceeds (h.regular regular s List.mem_cons_self) (all s List.mem_cons_self)
    (stateful s List.mem_cons_self) ht hr hfirst (fun _ hc => hc.1) hstep

end Stretch

/-- As long as the program stays and no global is defined, a reaction that has a state keeps one, whatever
is sent and however passes end. In a pass each previous value that belongs to it reads the state that it had
before that pass. Its first part is not run, if no function has that part for its body that the engine had
kept from before. -/
theorem Stage.Reached.state_lasts {e : Engine} {fair : Pass → Prop}
    (h : Reached Tree.Accepted fair (.idle e)) {r first : NodeId}
    (hr : e.program.tree.kind? r = some .reaction)
    (hfirst : (e.program.tree.children r).head? = some first)
    (hstate : (e.value? r).isSome = true) {s : Stage} {past : List Stage}
    (hs : Stretch (fun _ _ => True) (fun _ _ => False) e (s :: past)) :
    (s.engine.value? r).isSome = true ∧
      (∀ before p f rest, s = .busy before p → p.machine.frames = f :: rest →
        f.Recalls e.program.tree r → p.next.isRunning = true → ∃ v, before.value? r = some v ∧
          p.next.frames = { f with cursor := f.cursor + 1 }.push v :: rest) ∧
      ((∀ c, e.Keeps c → c.body ≠ first) →
        Stretch Known (fun _ _ => False) e (s :: past) →
        s.engine.evaluationCount first = e.evaluationCount first ∧
          ∀ before p, s = .busy before p → p.machine.record.evaluations[first]? = none) := by
  obtain ⟨t, ht, confined⟩ := h.exists_confined
  have confined : e.Confined t (fun _ => True) fun _ => True := confined
  have stateful : s.Stateful r :=
    hs.stateful h.regular confined (confined.tree ▸ hr) hstate _ List.mem_cons_self
  refine ⟨?_, ?_, fun apart known => ?_⟩
  · have hhas := stateful.engine
    rwa [Engine.value?, Cache.value?, Option.isSome_map]
  · rintro before p f rest rfl hm recalls hrun
    obtain ⟨-, hbefore, hcache⟩ := stateful
    obtain ⟨c, hc⟩ := Option.isSome_iff_exists.1 hbefore
    have hvalue : before.value? r = some c.value := by
      rw [Engine.value?, Cache.value?, hc]
      rfl
    refine ⟨c.value, hvalue, ?_⟩
    obtain ⟨-, ⟨o, -⟩ | hp⟩ := hs.regular h.regular _ List.mem_cons_self
    · have all := hs.confined h.regular confined (fun _ _ _ _ _ _ => trivial)
        (fun _ _ _ hv => hv.elim) (fun _ _ => trivial) fun _ _ _ _ _ _ _ => trivial
      have hstage := all _ List.mem_cons_self
      have htree : p.setting.program.tree = e.program.tree := by
        rw [o.program, hstage.1.tree, confined.tree]
      have hsteps : f.steps = e.program.tree.steps f.node :=
        htree ▸ hstage.2.listening.steps f (hm ▸ List.mem_cons_self)
      have hfind : p.setting.cache.value? r = some c.value := by
        rw [hcache]
        exact hvalue
      exact Machine.recall hm (hsteps ▸ recalls.step) hfind (o.started hm) hrun
    · rw [Pass.next, Machine.tick_of_ended hp.ended, hp.ended] at hrun
      cases hrun
  · have leavesOut : s.LeavesOut e r first := known.leavesOut h.regular ht confined
      (confined.tree ▸ hr) (confined.tree ▸ hfirst) hstate apart _ List.mem_cons_self
    refine ⟨leavesOut.count, ?_⟩
    rintro before p rfl
    exact leavesOut.2.untouched.record.run

/-! A reaction that adds a letter to its state with each key, in a branch of a conditional, in an engine
that keeps no other values. After a key the first pass is aborted in the middle of the reaction. -/

namespace Letters

/-- The first part of the reaction, node 5, is node 0, and its previous value is node 2. -/
def draft : Draft :=
  ⟨#[⟨.text "", [], none, none⟩, ⟨.changed "keyboard", [], none, none⟩, ⟨.previous, [], none, none⟩,
    ⟨.text "a", [], none, none⟩, ⟨.binary [.add], [2, 3], none, none⟩,
    ⟨.reaction, [0, 1, 4], none, none⟩, ⟨.boolean true, [], none, none⟩,
    ⟨.text "none", [], none, none⟩, ⟨.conditional, [6, 5, 7], none, none⟩]⟩

def tree : Tree := ((draft.finish 8).toOption).getD ⟨#[], 0⟩

/-- The engine before its first pass. -/
def fresh : Engine := .load tree Aside.catalog { Config.default with cacheCapacity := some 0 }

/-- The end of the first pass. -/
def first : Pass := Nat.iterate Pass.tick 20 (Pass.opened fresh)

def ready : Engine := first.abandon.engine

def pressed : Engine := ready.told "keyboard" (.text "k")

/-- The pass that is then asked to abort. -/
def running : Pass := Nat.iterate Pass.tick 18 (Pass.opened pressed)

def aborted : Engine :=
  ({ running with engine := running.engine.requestAbort } : Pass).tick.abandon.engine

/-- The next pass, when it comes to the previous value. -/
def reading : Pass := Nat.iterate Pass.tick 14 (Pass.opened aborted)

/-- What can be read off the program and its passes. -/
@[mk_iff]
structure Checked : Prop where
  built : draft.finish 8 = .ok tree
  kind : ready.program.tree.kind? 5 = some .reaction
  parts : (ready.program.tree.children 5).head? = some 0
  state : (ready.value? 5).isSome = true
  told : (ready.addEvent "keyboard" (.text "k")).toOption.isSome = true
  runs : pressed.stopped = false ∧ pressed.config.conflictPolicy = .attach
  runs_on : aborted.stopped = false ∧ aborted.config.conflictPolicy = .attach
  comes : (reading.machine.frames.head?.any fun f => f.node == 2 && f.cursor == 0) = true
  node : ready.program.tree.node? 2 = some ⟨.previous, [], some 4, none⟩
  belongs : ready.program.tree.enclosingReaction? 2 = some 5
  goesOn : reading.next.isRunning = true
  plain : (tree.ids.all fun i => !tree.isFunction i) = true

theorem checked : Checked := checked_iff.2 (by decide +kernel)

theorem new_fresh :
    Engine.new tree Aside.catalog { Config.default with cacheCapacity := some 0 } = .ok fresh :=
  rfl

theorem reached_fresh : Stage.Reached Tree.Accepted (fun _ => True) (.idle fresh) :=
  .new ⟨draft, 8, checked.built⟩ new_fresh

theorem stretch_ready : ∃ past, Stretch Known (fun _ _ => False) fresh (.idle ready :: past) := by
  have opened : Stretch Known (fun _ _ => False) fresh [.busy fresh (Pass.opened fresh), .idle fresh] :=
    .step .rest (.start (Pass.start_eq_opened rfl rfl))
  exact ⟨_, (opened.ticks 20).step .leave⟩

theorem reached : Stage.Reached Tree.Accepted (fun _ => True) (.idle ready) :=
  ((reached_fresh.step (.start (Pass.start_eq_opened rfl rfl))).ticks 20 fun _ _ => trivial).step
    .leave

/-- There is no function in the program, and none comes from outside. -/
theorem not_keeps (c : Closure) : ¬ ready.Keeps c := by
  obtain ⟨past, hs⟩ := stretch_ready
  have makes : tree.Makes (fun _ => True) fun _ => False := by
    intro i body parameters scope hk
    have hplain := List.all_eq_true.1 checked.plain i (List.mem_range.2 (Tree.lt_size_of_kind hk))
    rw [Tree.isFunction, hk] at hplain
    cases hplain
  have none : fresh.Confined tree (fun _ => True) fun _ => False :=
    Aside.confined_new new_fresh _
  have all := hs.confined reached_fresh.regular none (fun _ _ all hv => hv.every all)
    (fun _ _ _ hv => hv.elim) (fun _ _ => trivial) makes
  have hready : ready.Confined tree (fun _ => True) fun _ => False :=
    all _ List.mem_cons_self
  exact hready.of_keeps

theorem stretch : ∃ past, Stretch Known (fun _ _ => False) ready (.busy aborted reading :: past) := by
  have told : Stretch Known (fun _ _ => False) ready [.idle pressed, .idle ready] :=
    .step .rest (.addEvent (Engine.addEvent_eq_ok checked.told) (Value.every_text _))
  have run := (told.step (.start (Pass.start_eq_opened checked.runs.1 checked.runs.2))).ticks 18
  obtain ⟨past, left⟩ : ∃ past, Stretch Known (fun _ _ => False) ready (.idle aborted :: past) :=
    ⟨_, ((run.step .requestAbort).step .tick).step .leave⟩
  have opened := left.step (.start (Pass.start_eq_opened checked.runs_on.1 checked.runs_on.2))
  exact ⟨_, opened.ticks 14⟩

end Letters

/-- The previous value is the state before both passes, and the first part is not run again. -/
theorem Stage.Reached.letters_last : ∃ f rest v,
    Letters.reading.machine.frames = f :: rest ∧ Letters.aborted.value? 5 = some v ∧
      Letters.reading.next.frames = { f with cursor := f.cursor + 1 }.push v :: rest ∧
      Letters.reading.engine.evaluationCount 0 = Letters.ready.evaluationCount 0 := by
  obtain ⟨past, hs⟩ := Letters.stretch
  have lasts := state_lasts Letters.reached Letters.checked.kind Letters.checked.parts
    Letters.checked.state (hs.mono (fun _ _ _ => trivial) fun _ _ => id)
  obtain ⟨f, rest, hm, hf⟩ : ∃ f rest, Letters.reading.machine.frames = f :: rest ∧
      f.node = 2 ∧ f.cursor = 0 := by
    obtain ⟨f, hf, h⟩ := (Option.any_eq_true _ _).1 Letters.checked.comes
    simp only [Bool.and_eq_true, beq_iff_eq] at h
    exact ⟨f, _, List.eq_cons_of_mem_head? hf, h⟩
  have recalls : f.Recalls Letters.ready.program.tree 5 :=
    ⟨hf.2, ⟨_, ⟨hf.1 ▸ Letters.checked.node, rfl, rfl⟩, rfl⟩, hf.1 ▸ Letters.checked.belongs⟩
  obtain ⟨v, hv, hnext⟩ := lasts.2.1 _ _ f rest rfl hm recalls Letters.checked.goesOn
  have apart (c : Closure) (hc : Letters.ready.Keeps c) : c.body ≠ 0 :=
    absurd hc (Letters.not_keeps c)
  exact ⟨f, rest, v, hm, hv, hnext, (lasts.2.2 apart hs).1⟩

/-! A reaction whose first part has the number of the body of a function that is kept from another program.
-/

namespace Relapse

/-- The first part of the reaction, node 2, is node 0. -/
def draft : Draft :=
  ⟨#[⟨.text "a", [], none, none⟩, ⟨.text "b", [], none, none⟩, ⟨.reaction, [0, 1], none, none⟩,
    ⟨.reference "g", [], none, none⟩, ⟨.stream "keyboard", [], none, none⟩,
    ⟨.call, [3, 4], none, none⟩, ⟨.text "new", [], none, none⟩, ⟨.block, [2, 5, 6], none, none⟩]⟩

def tree : Tree := ((draft.finish 7).toOption).getD ⟨#[], 0⟩

/-- After a pass over the new program. -/
def ready : Engine := (Stray.onto tree).passed

def pressed : Engine := ready.told "keyboard" (.text "k")

/-- The end of the next pass. -/
def next : Pass := Nat.iterate Pass.tick 40 (Pass.opened pressed)

/-- What can be read off the program and its passes. -/
@[mk_iff]
structure Checked : Prop where
  built : draft.finish 7 = .ok tree
  runs : (Stray.onto tree).stopped = false ∧ (Stray.onto tree).config.conflictPolicy = .attach
  node : ready.program.tree.node? 2 = some ⟨.reaction, [0, 1], some 7, none⟩
  state : (ready.value? 2).isSome = true
  told : (ready.addEvent "keyboard" (.text "k")).toOption.isSome = true
  runs_on : pressed.stopped = false ∧ pressed.config.conflictPolicy = .attach
  counts : ready.evaluationCount 0 = 2
  counts_on : next.engine.evaluationCount 0 = 3

theorem checked : Checked := checked_iff.2 (by decide +kernel)

theorem reached : Stage.Reached Tree.Accepted (fun _ => True) (.idle ready) := by
  have kept := Stray.reached_onto ⟨_, _, checked.built⟩
  exact (kept.passed checked.runs.1 checked.runs.2 fun _ => trivial).step .leave

theorem stretch : ∃ past, Stretch Known (fun _ _ => False) ready (.busy pressed next :: past) := by
  have told : Stretch Known (fun _ _ => False) ready [.idle pressed, .idle ready] :=
    .step .rest (.addEvent (Engine.addEvent_eq_ok checked.told) (Value.every_text _))
  have opened := told.step (.start (Pass.start_eq_opened checked.runs_on.1 checked.runs_on.2))
  exact ⟨_, opened.ticks 40⟩

end Relapse

/-- The function runs the first part of a reaction that has a state. -/
theorem Stage.Reached.exists_first_part_run_again : ∃ e r n first s past,
    Reached Tree.Accepted (fun _ => True) (.idle e) ∧ e.program.tree.Working r n ∧
      n.kind = .reaction ∧ n.children.head? = some first ∧ (e.value? r).isSome = true ∧
      Stretch Known (fun _ _ => False) e (s :: past) ∧
      s.engine.evaluationCount first ≠ e.evaluationCount first := by
  obtain ⟨past, hs⟩ := Relapse.stretch
  refine ⟨Relapse.ready, 2, _, 0, _, past, Relapse.reached, ⟨Relapse.checked.node, rfl, rfl⟩, rfl, rfl,
    Relapse.checked.state, hs, ?_⟩
  rw [engine_busy, Relapse.checked.counts_on, Relapse.checked.counts]
  decide

end StreamLang
