import StreamLang.Proofs.Engine.Twins
import StreamLang.Proofs.Reuse.Agreement
import StreamLang.Proofs.Tree.Standing
/-!
How much is kept. Two sessions go through the same operations, with configurations that differ in how
many committed values are kept. Both keep the states of all reactions, and at the root of a pass both have
come to every reaction. So the values that every node has in the world of a pass are the same in both,
although not the same nodes have committed values, and different ones are out of date
(`Stage.Alongside.values_agree`). What it takes is that no bind is missed that a reaction depends on: one
whose committed value was evicted counts as changed when it comes again, and lets the reaction run.
-/
namespace StreamLang

open Machine

namespace Pass

/-- What a tick has to heed if it shall not make a difference which values are kept. It confuses no
values and forgets of no node with a committed value that it is dirty. The binds that a part of a reaction
in doubt depends on have committed values that are equal to themselves, and nothing has changed about a
reaction that has no state yet. -/
structure Mindful (p : Pass) : Prop where
  faithful : p.Faithful
  remembers : ∀ i, p.setting.program.analysis.isVolatile i = false → ¬ p.setting.program.tree.Spent i →
    p.setting.program.tree.kind? i ≠ some .reaction → p.setting.cache.has i = true →
    p.setting.staleness.mark? i = some .dirty → ¬ p.Sweeps i
  retains : ∀ r c b, p.setting.program.tree.kind? r = some .reaction → p.setting.cache.has r = true →
    c ∈ p.setting.program.tree.checked r → p.setting.staleness.mark? c = some .maybeDirty →
    b ∈ p.setting.program.analysis.dependencies c → ∃ u, p.setting.cache.value? b = some u ∧ u.equal u = true
  unhurried : ∀ r c, p.setting.program.tree.kind? r = some .reaction → p.setting.cache.has r = false →
    c ∈ p.setting.program.tree.checked r → p.setting.staleness.mark? c = none

/-- How it stands with a pass in the world `w'` that was opened after the world `w`: it is underway, was
dropped, or was committed and has come to all there is. -/
inductive Course {t : Tree} (f : t.Focus) (before : Engine) (left : NodeId → Prop) (w w' : World)
    (V V' : NodeId → Value) (p : Pass) : Prop where
  | underway (u : p.Underway before f left w w' V V')
    (same : (opened before).engine.reactor.Unmoved p.engine.reactor)
  | dropped (settled : p.Settled) (none : p.machine.endValue? = none)
    (coherent : p.engine.Coherent f left w V)
    (same : (opened before).engine.reactor.Unmoved p.engine.reactor)
  | committed (left' : NodeId → Prop) (settled : p.Settled)
    (value : p.machine.endValue? = some (V' t.root)) (coherent : p.engine.Coherent f left' w' V')
    (rounded : p.engine.reactor.Rounded f left' V' p.setting.cache.value? p.setting.snapshot)

variable {p : Pass} {before a b e : Engine} {t : Tree} {f : t.Focus} {left left' : NodeId → Prop}
  {w w' : World} {V V' : NodeId → Value}

theorem Mindful.heeds (h : p.Mindful) (st : t.Standing) (hp : p.setting.program = .ofTree t) :
    p.Heeds st.focus := by
  obtain ⟨faithful, remembers, retains, unhurried⟩ := h
  simp only [hp] at remembers retains unhurried
  exact ⟨faithful, fun i hi => remembers i hi.1 hi.2,
    fun r n c b hr => retains r c b hr.kind?, fun r n c hr => unhurried r c hr.kind?⟩

/-- What a pass that does not find any marked node to be up to date has to heed shows when it begins. -/
theorem mindful_of_cleaned {e : Engine}
    (h : ((Machine.start e.scopes).finish (opened e).setting false).record.cleaned = [])
    (faithful : ∀ k, (Nat.iterate tick k (opened e)).Faithful)
    (retains : ∀ r c b, (opened e).setting.program.tree.kind? r = some .reaction →
      c ∈ (opened e).setting.program.tree.checked r →
      (opened e).setting.staleness.mark? c = some .maybeDirty →
      b ∈ (opened e).setting.program.analysis.dependencies c →
      ((opened e).setting.cache.value? b).any (fun u => u.equal u) = true)
    (unhurried : ∀ r c, (opened e).setting.program.tree.kind? r = some .reaction →
      (opened e).setting.cache.has r = false → c ∈ (opened e).setting.program.tree.checked r →
      (opened e).setting.staleness.mark? c = none) (k : Nat) :
    (Nat.iterate tick k (opened e)).Mindful := by
  refine ⟨faithful k, fun i _ _ _ _ _ => not_sweeps_of_cleaned h k i, ?_, ?_⟩ <;>
    rw [setting_iterate_tick]
  · exact fun r c b hr _ hc hm hb => (Option.any_eq_true _ _).1 (retains r c b hr hc hm hb)
  · exact unhurried

/-- After a commit a pass has come to all there is. -/
theorem Underway.rounded_of_committed (u : p.Underway before f left w w' V V') {q : Pass} {k : Nat}
    {v : Value} (h : p.Committed q before p.setting.Faithful k v) (mindful : f.Mindful p.setting)
    (all : ∀ i, f.known i) :
    q.engine.reactor.Rounded f (LeftAfter left p.next.record q.engine.reactor.staleness) V'
      p.setting.cache.value? p.setting.snapshot := by
  have arrived := u.arrived_of_committed h mindful
  have hreactor : q.engine.reactor = p.engine.reactor.commit t p.setting.snapshot p.next.record := by
    rw [h.reactor, u.engine.program]
    rfl
  have c := p.engine.reactor.commit_cleans f.ordered p.setting.snapshot p.next.record
  rw [← u.isOpen.staleness, ← hreactor] at c
  refine u.begun.rounded arrived.sound all c mindful (arrived.settled (all _)) (arrived.traced (all _))
    (fun c j hl hj => ?_) rfl ?_
  · rw [u.isOpen.staleness]
    refine u.engine.reactor.attentive.told c j hl ?_
    obtain ⟨n, stream, e, hw, hk, he, hch⟩ := hj
    rw [u.isOpen.snapshot, Registry.snapshot_get?, ← Registry.snapshot_get? _ 0] at he
    exact ⟨n, stream, e, hw, hk, he, hch⟩
  · rw [hreactor, Reactor.commit_edgeTriggered]

namespace Course

variable (h : p.Course f before left w w' V V')
include h

theorem requestAbort : { p with engine := p.engine.requestAbort }.Course f before left w w' V V' := by
  cases h with
  | underway u same => exact .underway u.requestAbort same
  | dropped settled none coherent same =>
    exact .dropped ⟨settled.finished, settled.ended⟩ none
      (coherent.between (Engine.between_requestAbort t _)) same
  | committed left' settled value coherent rounded =>
    exact .committed left' ⟨settled.finished, settled.ended⟩ value
      (coherent.between (Engine.between_requestAbort t _)) rounded

theorem sendDuring {stream : String} {v : Value} (hs : p.engine.send stream v = .ok e) :
    { p with engine := e }.Course f before left w w' V V' := by
  have hb := Engine.between_send t hs
  obtain ⟨inbox, -, rfl⟩ := Engine.inbox_of_send hs
  cases h with
  | underway u same => exact .underway (u.sendDuring hs) ⟨same.cache, same.staleness, same.edges⟩
  | dropped settled none coherent same =>
    exact .dropped ⟨settled.finished, settled.ended⟩ none (coherent.between hb)
      ⟨same.cache, same.staleness, same.edges⟩
  | committed left' settled value coherent rounded =>
    exact .committed left' ⟨settled.finished, settled.ended⟩ value (coherent.between hb)
      (rounded.unmoved ⟨rfl, rfl, rfl⟩)

theorem tick (heeds : p.setting.program = .ofTree t → p.Heeds f) (all : ∀ i, f.known i) :
    p.tick.Course f before left w w' V V' := by
  cases h with
  | underway u same =>
    have heeds := heeds u.begun.program
    obtain ⟨hsetting, hu | ⟨hq, hd | ⟨k, v, hc⟩⟩⟩ := u.tick heeds.faithful
    · exact .underway hu.1 (hu.2 ▸ same)
    · refine .dropped hq hd.endValue?_eq_none (u.engine.between (hd.engine t)) ?_
      rw [hd.reactor]
      exact same.trans ⟨rfl, rfl, rfl⟩
    · have arrived := u.arrived_of_committed hc heeds.mindful
      refine .committed _ hq ?_ (u.coherent_of_committed hc heeds) ?_
      · rw [hc.endValue?, arrived.value (all _)]
      · rw [hsetting]
        exact u.rounded_of_committed hc heeds.mindful all
  | dropped settled none coherent same =>
    rw [settled.tick]
    exact .dropped settled none coherent same
  | committed left' settled value coherent rounded =>
    rw [settled.tick]
    exact .committed left' settled value coherent rounded

/-- A pass that has no value leaves everything as it was when it began. -/
theorem abandon_of_none (hv : p.machine.endValue? = none) : p.abandon.engine.Coherent f left w V ∧
    (opened before).engine.reactor.Unmoved p.abandon.engine.reactor := by
  cases h with
  | underway u same =>
    refine ⟨u.coherent_abandon, same.trans ?_⟩
    rw [Pass.abandon, u.isOpen.unfinished]
    exact ⟨rfl, rfl, rfl⟩
  | dropped settled none coherent same =>
    rw [Pass.abandon, if_pos settled.finished]
    exact ⟨coherent, same⟩
  | committed left' settled value coherent rounded =>
    rw [value] at hv
    cases hv

/-- A pass that has a value has come to the root with it. -/
theorem abandon_of_some {v : Value} (hv : p.machine.endValue? = some v) : v = V' t.root ∧
    ∃ left', p.abandon.engine.Coherent f left' w' V' ∧
      p.abandon.engine.reactor.Rounded f left' V' p.setting.cache.value? p.setting.snapshot := by
  cases h with
  | underway u same =>
    rw [endValue?_of_isRunning u.isOpen.isRunning] at hv
    cases hv
  | dropped settled none coherent same =>
    rw [none] at hv
    cases hv
  | committed left' settled value coherent rounded =>
    rw [value] at hv
    rw [Pass.abandon, if_pos settled.finished]
    exact ⟨(Option.some.inj hv).symm, left', coherent, rounded⟩

end Course

/-- Two engines that agree begin their passes in the same world, with the same values, and still agree. -/
theorem exists_underway (ha : a.Coherent f left w V) (hb : b.Coherent f left' w V)
    (h : a.reactor.Agrees f left left' V b.reactor) (twin : a.Twin b) : ∃ w' V',
    (opened a).Underway a f left w w' V V' ∧ (opened b).Underway b f left' w w' V V' ∧
      (opened a).engine.reactor.Agrees f left left' V (opened b).engine.reactor := by
  have readers (i : NodeId) :
      i ∈ b.reactor.inbox.events.flatMap b.reactor.registry.heard ++ b.reactor.edgeTriggered ↔
        i ∈ a.reactor.inbox.events.flatMap a.reactor.registry.heard ++ a.reactor.edgeTriggered := by
    rw [List.mem_append, List.mem_append, twin.inbox, twin.registry, h.edges]
  have agrees : (opened a).engine.reactor.Agrees f left left' V (opened b).engine.reactor := by
    refine h.marked ha.reactor.kept.walked hb.reactor.kept.walked readers ?_ ?_ ?_ ?_ fun i => ?_
    all_goals simp [opened, Reactor.beginPass_eq, ha.program, hb.program]
  obtain ⟨V', means, turns⟩ := f.exists_turns (opened a).setting.staleness (worldOf a) V
  obtain ⟨V'', means', turns'⟩ := f.exists_turns (opened b).setting.staleness (worldOf a) V
  have ua := underway_opened ha rfl rfl rfl (fun _ _ _ => rfl) means turns
  have ub := underway_opened hb twin.snapshot.symm twin.policy.symm twin.outer.symm
    (fun r n hr => (agrees.states r n hr).symm) means' turns'
  obtain rfl : V'' = V' := funext fun i =>
    agrees.eq_of_renewed ua.begun.kept ub.begun.kept ua.begun.renewed ub.begun.renewed i
  exact ⟨_, V'', ua, ub, agrees⟩

end Pass
namespace Stage

/-- What two sessions side by side have in common. Between passes both have seen the same world last, in
which all nodes have the same values, and agree in what reactions depend on. Passes that were started on
such engines take place in the same world. -/
def Agree : Stage → Stage → Prop
  | idle a, idle b => ∃ (t : Tree) (st : t.Standing) (left left' : NodeId → Prop) (w : World)
      (V : NodeId → Value), a.Coherent st.focus left w V ∧ b.Coherent st.focus left' w V ∧
        a.reactor.Agrees st.focus left left' V b.reactor
  | busy a p, busy b q => ∃ (t : Tree) (st : t.Standing) (left left' : NodeId → Prop) (w w' : World)
      (V V' : NodeId → Value), p.Course st.focus a left w w' V V' ∧ q.Course st.focus b left' w w' V V' ∧
        (Pass.opened a).engine.reactor.Agrees st.focus left left' V (Pass.opened b).engine.reactor
  | _, _ => False

/-- Engines that show programs the same agree once they have forgotten everything. -/
theorem agree_reset {t : Tree} {a b : Engine} (st : t.Standing) (twin : a.reset.Twin b.reset)
    (program : a.program = .ofTree t) (running : a.stopped = false) (ha : a.reset.Housed)
    (hb : b.reset.Housed) : Agree (idle a.reset) (idle b.reset) := by
  have hp : b.program = .ofTree t := Eq.trans twin.program program
  have hs : b.stopped = false := Eq.trans twin.stopped running
  obtain ⟨w, V, means, outer, policy⟩ := Engine.exists_world st.inPlace a
  refine ⟨t, st, _, _, w, V,
    .reset program running ha.nested ha.globals outer policy fun i _ => means i,
    .reset hp hs hb.nested hb.globals (outer.trans (Eq.symm twin.outer))
      (policy.trans (Eq.symm twin.policy)) fun i _ => means i, .of_empty ?_ ?_ ?_ ?_⟩
  all_goals simp [Engine.reset, running, hs, Reactor.subscribeReaders, Reactor.invalidate]

/-- After the same step both have as much in common again. -/
theorem Alongside.agree {s s' : Stage} (h : Alongside Tree.Standing Pass.Mindful s s') : s.Agree s' := by
  have accepted (t : Tree) (st : t.Standing) : t.Accepted := st.inPlace.accepted
  induction h with
  | new st ha hb =>
    obtain rfl := Engine.eq_load_of_new ha
    obtain rfl := Engine.eq_load_of_new hb
    obtain ⟨w, V, means, outer, policy⟩ := Engine.exists_world st.inPlace _
    exact ⟨_, st, _, _, w, V, .load rfl outer policy fun i _ => means i,
      .load rfl outer policy fun i _ => means i, .of_empty rfl rfl rfl rfl⟩
  | addEvent _ ha hb ih =>
    obtain ⟨t, st, left, left', w, V, ca, cb, agrees⟩ := ih
    refine ⟨t, st, left, left', w, V, ca.between (Engine.between_addEvent t ha),
      cb.between (Engine.between_addEvent t hb), ?_⟩
    obtain ⟨i, -, rfl⟩ := Engine.inbox_of_send (Engine.send_of_addEvent ha)
    obtain ⟨j, -, rfl⟩ := Engine.inbox_of_send (Engine.send_of_addEvent hb)
    exact agrees.unmoved ⟨rfl, rfl, rfl⟩ ⟨rfl, rfl, rfl⟩
  | setAvailable h ha hb ih =>
    obtain ⟨t, st, left, left', w, V, ca, cb, agrees⟩ := ih
    refine ⟨t, st, left, left', w, V, ca.between (Engine.between_setAvailable ca.program ha),
      cb.between (Engine.between_setAvailable cb.program hb), ?_⟩
    have twin : Engine.Twin _ _ := (h.mono accepted fun _ _ => trivial).twins
    obtain ⟨r, hr, rfl⟩ := Engine.setAvailable_eq_ok ha
    obtain ⟨r', hr', rfl⟩ := Engine.setAvailable_eq_ok hb
    obtain ⟨readers, registry, hx, rfl⟩ := Reactor.setAvailable_eq_ok hr
    obtain ⟨readers', registry', hx', rfl⟩ := Reactor.setAvailable_eq_ok hr'
    rw [twin.registry, hx] at hx'
    obtain ⟨rfl, rfl⟩ := Prod.mk.inj (Except.ok.inj hx')
    exact agrees.marked ca.reactor.kept.walked cb.reactor.kept.walked (fun _ => .rfl) rfl rfl
      (by rw [ca.program]) (by rw [cb.program]) agrees.edges
  | defineGlobal h name v ih =>
    obtain ⟨t, st, left, left', w, V, ca, cb, agrees⟩ := ih
    have twin : Engine.Twin _ _ := ((h.defineGlobal name v).mono accepted fun _ _ => trivial).twins
    have housed := ((h.defineGlobal name v).mono accepted fun _ _ => trivial).reached
    exact agree_reset st twin ca.program ca.running housed.1.housed.2 housed.2.housed.2
  | replaceTree h st ih =>
    obtain ⟨_, _, _, _, _, _, ca, -, -⟩ := ih
    have twin : Engine.Twin _ _ := ((h.replaceTree st).mono accepted fun _ _ => trivial).twins
    have housed := ((h.replaceTree st).mono accepted fun _ _ => trivial).reached
    exact agree_reset st twin rfl ca.running housed.1.housed.2 housed.2.housed.2
  | start h hp hq ih =>
    obtain ⟨-, rfl⟩ := Pass.start_eq_ok hp
    obtain ⟨-, rfl⟩ := Pass.start_eq_ok hq
    obtain ⟨t, st, left, left', w, V, ca, cb, agrees⟩ := ih
    have twin : Engine.Twin _ _ := (h.mono accepted fun _ _ => trivial).twins
    obtain ⟨w', V', ua, ub, agrees⟩ := Pass.exists_underway ca cb agrees twin
    exact ⟨t, st, left, left', w, w', V, V', .underway ua (.refl _), .underway ub (.refl _), agrees⟩
  | tickLeft _ hf ih =>
    obtain ⟨t, st, left, left', w, w', V, V', ca, cb, agrees⟩ := ih
    exact ⟨t, st, left, left', w, w', V, V', ca.tick (hf.heeds st) fun _ => st.known_focus, cb, agrees⟩
  | tickRight _ hf ih =>
    obtain ⟨t, st, left, left', w, w', V, V', ca, cb, agrees⟩ := ih
    exact ⟨t, st, left, left', w, w', V, V', ca, cb.tick (hf.heeds st) fun _ => st.known_focus, agrees⟩
  | sendDuring _ hp hq ih =>
    obtain ⟨t, st, left, left', w, w', V, V', ca, cb, agrees⟩ := ih
    exact ⟨t, st, left, left', w, w', V, V', ca.sendDuring hp, cb.sendDuring hq, agrees⟩
  | requestAbort _ ih =>
    obtain ⟨t, st, left, left', w, w', V, V', ca, cb, agrees⟩ := ih
    exact ⟨t, st, left, left', w, w', V, V', ca.requestAbort, cb.requestAbort, agrees⟩
  | @leave a b p q h hc ih =>
    obtain ⟨twin, advanced, advanced', -⟩ :=
      (h.mono accepted fun _ _ => trivial).twins
    obtain ⟨t, st, left, left', w, w', V, V', ca, cb, agrees⟩ := ih
    cases hv : p.machine.endValue? with
    | none =>
      have hv' : q.machine.endValue? = none := by simpa [hv] using hc
      obtain ⟨ea, sa⟩ := ca.abandon_of_none hv
      obtain ⟨eb, sb⟩ := cb.abandon_of_none hv'
      exact ⟨t, st, left, left', w, V, ea, eb, agrees.unmoved sa sb⟩
    | some v =>
      obtain ⟨v', hv'⟩ := Option.isSome_iff_exists.1 (hc.symm.trans (by simp [hv]))
      obtain ⟨-, l, ea, ra⟩ := ca.abandon_of_some hv
      obtain ⟨-, l', eb, rb⟩ := cb.abandon_of_some hv'
      rw [advanced.setting] at ra
      rw [advanced'.setting, twin.snapshot] at rb
      exact ⟨t, st, l, l', w', V', ea, eb, Reactor.Rounded.agrees (fun _ => st.known_focus)
        agrees.states ea.reactor.kept eb.reactor.kept ra rb⟩

/-- Over trees that everything can be followed in, two passes side by side that end with a value give the
same one, however few values are kept. -/
theorem Alongside.values_agree {a b : Engine} {p q : Pass}
    (h : Alongside Tree.Standing Pass.Mindful (busy a p) (busy b q)) {v w : Value}
    (hv : p.machine.endValue? = some v) (hw : q.machine.endValue? = some w) : v = w := by
  obtain ⟨t, st, _, _, _, _, V, V', ca, cb, -⟩ := h.agree
  rw [(ca.abandon_of_some hv).1, (cb.abandon_of_some hw).1]

end Stage

/-! A reaction that joins all texts that were typed, behind a bind that it does not depend on. -/

namespace Joining

def draft : Draft :=
  ⟨#[⟨.stream "keyboard", [], none, none⟩, ⟨.bind "shown", [0], none, none⟩,
    ⟨.stream "keyboard", [], none, none⟩, ⟨.bind "typed", [2], none, none⟩,
    ⟨.reference "shown", [], none, none⟩, ⟨.text "", [], none, none⟩, ⟨.previous, [], none, none⟩,
    ⟨.reference "typed", [], none, none⟩, ⟨.binary [.add], [6, 7], none, none⟩,
    ⟨.reaction, [5, 8], none, none⟩, ⟨.list, [4, 9], none, none⟩, ⟨.block, [1, 3, 10], none, none⟩]⟩

def tree : Tree := ((draft.finish 11).toOption).getD ⟨#[], 0⟩

def catalog : Catalog := ⟨[("keyboard", ⟨"keyboard", .push, .text, .text ""⟩)]⟩

/-- The engine before its first pass, if it keeps so many values. -/
def holding (capacity : Option Nat) : Engine :=
  .load tree catalog { Config.default with cacheCapacity := capacity }

/-- After one pass and a text. -/
def once (capacity : Option Nat) : Engine := (holding capacity).passed.told "keyboard" (.text "k")

/-- After two passes, each with a text after it. -/
def twice (capacity : Option Nat) : Engine := (once capacity).passed.told "keyboard" (.text "l")

/-- What can be read off the program. -/
@[mk_iff]
structure Built : Prop where
  built : draft.finish 11 = .ok tree
  kinds : ∀ i < tree.size, i ≠ 9 →
    (tree.kind? i).all (fun k => (k.isPlain || k == .previous) && k != .conditional) = true
  parts : tree.kind? 9 = some .reaction ∧ tree.children 9 = [5, 8]
  binds : ∀ b < tree.size, tree.kindIs NodeKind.isBind b = true →
    (Analysis.ofTree tree).isVolatile b = false

theorem built : Built := built_iff.2 (by decide +kernel)

/-- Node 9 is the only one that is not plain. -/
theorem eq_nine {i : NodeId} {k : NodeKind} (hi : tree.kind? i = some k)
    (hk : ((k.isPlain || k == .previous) && k != .conditional) = false) : i = 9 := by
  by_contra hne
  have := built.kinds i (Tree.lt_size_of_kind hi) hne
  simp [hi, hk] at this

theorem reaction {i : NodeId} (hi : tree.kind? i = some .reaction) : i = 9 := eq_nine hi rfl

theorem standing : tree.Standing := by
  have o : tree.Ordered := Draft.finish_ordered built.built
  refine ⟨⟨⟨_, _, built.built⟩, fun i => ?_, fun i hi => ?_⟩, fun i b hr => ?_, fun r a d c hr hc => ?_,
    fun p r hp hr _ => ?_, fun p c r hp _ _ _ => ?_⟩
  · cases hk : tree.kind? i with
    | none => simp [Tree.isFunction, hk]
    | some k =>
      cases k
      case function parameters =>
        obtain rfl := eq_nine hk rfl
        simp [built.parts] at hk
      all_goals simp [Tree.isFunction, hk]
  · obtain rfl := eq_nine hi rfl
    simp [built.parts] at hi
  · obtain ⟨-, -, name, -, -, -, -, hb⟩ := o.exists_sibling_of_resolution hr
    exact built.binds b (Tree.lt_size_of_kind hb) (by simp [Tree.kindIs, hb, NodeKind.isBind])
  · obtain rfl := reaction hr
    simp [built.parts] at hc
  · rw [reaction hp, reaction hr]
  · obtain rfl := eq_nine hp rfl
    simp [built.parts] at hp

/-- What can be read off a pass that does not find any marked node to be up to date. -/
@[mk_iff]
structure Fresh (e : Engine) : Prop where
  tree_eq : (Pass.opened e).setting.program.tree = tree
  texts : ∀ i < tree.size, tree.kindIs NodeKind.isBind i = true →
    ((Pass.opened e).setting.cache.value? i).all Echo.isText = true
  cleaned : ((Machine.start e.scopes).finish (Pass.opened e).setting false).record.cleaned = []
  retains : ∀ b ∈ (Analysis.ofTree tree).dependencies 8,
    (Pass.opened e).setting.staleness.mark? 8 = some .maybeDirty →
      ((Pass.opened e).setting.cache.value? b).any (fun u => u.equal u) = true
  unhurried : (Pass.opened e).setting.cache.has 9 = false →
    (Pass.opened e).setting.staleness.mark? 8 = none

instance (e : Engine) : Decidable (Fresh e) := decidable_of_iff _ (fresh_iff e).symm

theorem Fresh.mindful {e : Engine} (h : Fresh e) (r : (Stage.idle e).Regular) (k : Nat) :
    (Nat.iterate Pass.tick k (.opened e)).Mindful := by
  obtain ⟨t, r⟩ := r
  have program : (Pass.opened e).setting.program = .ofTree tree := by
    have ht : (Pass.opened e).setting.program.tree = t := congrArg Program.tree r.program
    rw [h.tree_eq] at ht
    rw [ht]
    exact r.program
  have checked {c : NodeId} (hc : c ∈ tree.checked 9) : c = 8 := by
    rw [Tree.checked_of_reaction built.parts.1, built.parts.2] at hc
    simpa using hc
  refine Pass.mindful_of_cleaned h.cleaned (fun k i v _ hbind u hu heq => ?_) ?_ ?_ k
  · rw [Pass.setting_iterate_tick] at hbind hu
    rw [h.tree_eq] at hbind
    obtain ⟨kind, hk, -⟩ := (Option.any_eq_true _ _).1 hbind
    have htext := h.texts i (Tree.lt_size_of_kind hk) hbind
    rw [hu] at htext
    exact Echo.eq_of_isText htext heq
  · rw [program]
    intro r c b hr hc hm hb
    obtain rfl := reaction hr
    obtain rfl := checked hc
    exact h.retains b hb hm
  · rw [program]
    intro r c hr hhas hc
    obtain rfl := reaction hr
    obtain rfl := checked hc
    exact h.unhurried hhas

/-- What can be read off the passes with a configuration. -/
@[mk_iff]
structure Checked (capacity : Option Nat) : Prop where
  fresh : ∀ e ∈ [holding capacity, once capacity, twice capacity], Fresh e
  once_told : ((holding capacity).passed.addEvent "keyboard" (.text "k")).toOption.isSome = true
  once_runs : (once capacity).stopped = false ∧ (once capacity).config.conflictPolicy = .attach
  twice_told : ((once capacity).passed.addEvent "keyboard" (.text "l")).toOption.isSome = true
  twice_runs : (twice capacity).stopped = false ∧ (twice capacity).config.conflictPolicy = .attach
  once_ends : (Pass.opened (holding capacity)).toEnd.machine.endValue?.isSome = true
  twice_ends : (Pass.opened (once capacity)).toEnd.machine.endValue?.isSome = true
  ended : (Pass.opened (twice capacity)).toEnd.machine.endValue?.isSome = true

theorem keepsAll : Checked none := (checked_iff none).2 (by decide +kernel)

theorem keepsEight : Checked (some 8) := (checked_iff (some 8)).2 (by decide +kernel)

/-- What is left of the committed values. -/
theorem kept_values : (∀ i ≤ 12, (twice none).reactor.cache.has i = true) ∧
    (∀ i ≤ 12, (twice (some 8)).reactor.cache.has i = false ↔ i ∈ [0, 1, 2, 5]) ∧
    (Pass.opened (twice none)).toEnd.machine.endValue?.any
      (·.equal (.list [.text "l", .text "kl"])) = true := by decide +kernel

theorem alongside : Stage.Alongside Tree.Standing Pass.Mindful
    (.busy (twice none) (Pass.opened (twice none)).toEnd)
    (.busy (twice (some 8)) (Pass.opened (twice (some 8))).toEnd) := by
  have hnew (capacity : Option Nat) :
      Engine.new tree catalog { Config.default with cacheCapacity := capacity } =
        .ok (holding capacity) := rfl
  have passed {a b : Engine} (h : Stage.Alongside Tree.Standing Pass.Mindful (.idle a) (.idle b))
      (fa : Fresh a) (fb : Fresh b) (ra : a.stopped = false ∧ a.config.conflictPolicy = .attach)
      (rb : b.stopped = false ∧ b.config.conflictPolicy = .attach) :
      Stage.Alongside Tree.Standing Pass.Mindful (.busy a (Pass.opened a).toEnd)
        (.busy b (Pass.opened b).toEnd) := by
    have regular := (h.mono (fun _ st => st.inPlace.accepted) fun _ hf => hf).reached
    exact h.passed ra rb (fa.mindful regular.1.housed.1) (fb.mindful regular.2.housed.1)
  have first := passed (.new standing (hnew none) (hnew (some 8))) (keepsAll.fresh _ (by simp))
    (keepsEight.fresh _ (by simp)) ⟨rfl, rfl⟩ ⟨rfl, rfl⟩
  have second := passed ((first.leave (keepsAll.once_ends.trans keepsEight.once_ends.symm)).addEvent
    (Engine.addEvent_eq_ok keepsAll.once_told) (Engine.addEvent_eq_ok keepsEight.once_told))
    (keepsAll.fresh (once none) (by simp)) (keepsEight.fresh (once (some 8)) (by simp))
    keepsAll.once_runs keepsEight.once_runs
  exact passed ((second.leave (keepsAll.twice_ends.trans keepsEight.twice_ends.symm)).addEvent
    (Engine.addEvent_eq_ok keepsAll.twice_told) (Engine.addEvent_eq_ok keepsEight.twice_told))
    (keepsAll.fresh (twice none) (by simp)) (keepsEight.fresh (twice (some 8)) (by simp))
    keepsAll.twice_runs keepsEight.twice_runs

end Joining

/-- One engine has kept all values when the third pass begins; from the other one the bind that is shown
was evicted with its stream. The reaction has joined both texts in both. -/
theorem Stage.Alongside.joined_values_agree : ∃ v,
    (Pass.opened (Joining.twice none)).toEnd.machine.endValue? = some v ∧
      (Pass.opened (Joining.twice (some 8))).toEnd.machine.endValue? = some v ∧
      v.equal (.list [.text "l", .text "kl"]) = true ∧
      (∀ i ≤ 12, (Joining.twice none).reactor.cache.has i = true) ∧
      ∀ i ≤ 12, (Joining.twice (some 8)).reactor.cache.has i = false ↔ i ∈ [0, 1, 2, 5] := by
  obtain ⟨all, eight, ended⟩ := Joining.kept_values
  obtain ⟨v, hv, heq⟩ := (Option.any_eq_true _ _).1 ended
  obtain ⟨w, hw⟩ := Option.isSome_iff_exists.1 Joining.keepsEight.ended
  obtain rfl := Stage.Alongside.values_agree Joining.alongside hv hw
  exact ⟨v, hv, hw, heq, all, eight⟩

/-! A reaction that adds a letter whenever it runs, and a bind that stays false while the stream that
it is made of changes. -/

namespace Evicted

def draft : Draft :=
  ⟨#[⟨.stream "p", [], none, none⟩, ⟨.boolean false, [], none, none⟩,
    ⟨.binary [.and], [0, 1], none, none⟩, ⟨.bind "x", [2], none, none⟩, ⟨.text "", [], none, none⟩,
    ⟨.reference "x", [], none, none⟩, ⟨.text "on", [], none, none⟩, ⟨.previous, [], none, none⟩,
    ⟨.text "a", [], none, none⟩, ⟨.binary [.add], [7, 8], none, none⟩,
    ⟨.conditional, [5, 6, 9], none, none⟩, ⟨.reaction, [4, 10], none, none⟩,
    ⟨.block, [3, 11], none, none⟩]⟩

def tree : Tree := ((draft.finish 12).toOption).getD ⟨#[], 0⟩

def catalog : Catalog := ⟨[("p", ⟨"p", .push, .boolean, .boolean true⟩)]⟩

/-- The engine before its first pass, if it keeps so many values. -/
def holding (capacity : Option Nat) : Engine :=
  .load tree catalog { Config.default with cacheCapacity := capacity }

/-- After a pass and a change of the stream. -/
def changed (capacity : Option Nat) : Engine := (holding capacity).passed.told "p" (.boolean false)

/-- What can be read off the program and its passes if all values are kept. -/
@[mk_iff]
structure KeepsAll : Prop where
  built : draft.finish 12 = .ok tree
  told : ((holding none).passed.addEvent "p" (.boolean false)).toOption.isSome = true
  runs : (changed none).stopped = false ∧ (changed none).config.conflictPolicy = .attach
  ends : (Pass.opened (holding none)).toEnd.machine.endValue?.isSome = true
  ended : (Pass.opened (changed none)).toEnd.machine.endValue?.any
    (Value.equal (.text "") ·) = true

/-- What can be read off the passes if no value is kept. -/
@[mk_iff]
structure KeepsNone : Prop where
  told : ((holding (some 0)).passed.addEvent "p" (.boolean false)).toOption.isSome = true
  runs : (changed (some 0)).stopped = false ∧ (changed (some 0)).config.conflictPolicy = .attach
  ends : (Pass.opened (holding (some 0))).toEnd.machine.endValue?.isSome = true
  ended : (Pass.opened (changed (some 0))).toEnd.machine.endValue?.any
    (Value.equal (.text "a") ·) = true

theorem keepsAll : KeepsAll := keepsAll_iff.2 (by decide +kernel)

theorem keepsNone : KeepsNone := keepsNone_iff.2 (by decide +kernel)

theorem alongside : Stage.Alongside Tree.Accepted (fun _ => True)
    (.busy (changed none) (Pass.opened (changed none)).toEnd)
    (.busy (changed (some 0)) (Pass.opened (changed (some 0))).toEnd) := by
  have hnew (capacity : Option Nat) :
      Engine.new tree catalog { Config.default with cacheCapacity := capacity } =
        .ok (holding capacity) := rfl
  have new : Stage.Alongside Tree.Accepted (fun _ => True) (.idle (holding none))
      (.idle (holding (some 0))) := .new ⟨draft, 12, keepsAll.built⟩ (hnew none) (hnew (some 0))
  have first := new.passed ⟨rfl, rfl⟩ ⟨rfl, rfl⟩ (fun _ => trivial) fun _ => trivial
  have second : Stage.Alongside Tree.Accepted (fun _ => True) (.idle (changed none))
      (.idle (changed (some 0))) :=
    (first.leave (keepsAll.ends.trans keepsNone.ends.symm)).addEvent
      (Engine.addEvent_eq_ok keepsAll.told) (Engine.addEvent_eq_ok keepsNone.told)
  exact second.passed keepsAll.runs keepsNone.runs (fun _ => trivial) fun _ => trivial

end Evicted

/-- With all values kept, the reaction sees that the bind has not changed and keeps its state; where
the value of the bind was evicted, it runs again. -/
theorem Stage.Alongside.exists_values_differ :
    ¬ ∀ a b p q v w, Alongside Tree.Accepted (fun _ => True) (busy a p) (busy b q) →
      p.machine.endValue? = some v → q.machine.endValue? = some w → v.equal w = true := by
  intro h
  have hv := Evicted.keepsAll.ended
  have hw := Evicted.keepsNone.ended
  obtain ⟨v, hv, hold⟩ := (Option.any_eq_true _ _).1 hv
  obtain ⟨w, hw, hnew⟩ := (Option.any_eq_true _ _).1 hw
  have heq := h _ _ _ _ v w Evicted.alongside hv hw
  cases v <;> simp only [Value.equal, Bool.false_eq_true, beq_iff_eq] at hold
  cases w <;> simp only [Value.equal, Bool.false_eq_true, beq_iff_eq] at hnew
  subst hold hnew
  simp [Value.equal] at heq

end StreamLang
