import StreamLang.Proofs.Engine.Passes
/-!
The invariant of an engine between passes is that of its reactor, in the world that its globals are
part of. A pass keeps it aside, and a machine that ends with a value has given all nodes that are known
and that it came to their values in the world of the pass. What a commit leaves behind is the invariant
again, if it takes no mark of a dirty node off in error.
-/
namespace StreamLang

open Machine

/-- What holds of an engine between passes if `w` is the world seen last. -/
structure Engine.Coherent {t : Tree} (e : Engine) (f : t.Focus) (left : NodeId → Prop) (w : World)
    (V : NodeId → Value) : Prop where
  program : e.program = .ofTree t
  means : ∀ i, (∀ n, ¬ f.Reacts i n) → V i = t.valueFrom w V i
  outer : w.outer = e.scopes.lookup e.globals
  policy : w.policy = e.config.unavailablePolicy
  nested : e.scopes.Nested
  globals : e.globals < e.scopes.all.size
  running : e.stopped = false
  reactor : e.reactor.Coherent f left w V

namespace Engine.Coherent

variable {t : Tree} {f : t.Focus} {e e' : Engine} {left : NodeId → Prop} {w : World}
  {V : NodeId → Value}

/-- An engine that has forgotten all committed values fits every world with its globals. -/
theorem fresh (hp : e.program = .ofTree t) (hn : e.scopes.Nested)
    (hg : e.globals < e.scopes.all.size) (hs : e.stopped = false) {r : Reactor}
    (hr : e.reactor = r.subscribeReaders (.ofTree t)) (hc : r.cache = .empty)
    (hm : r.staleness = .empty) (outer : w.outer = e.scopes.lookup e.globals)
    (policy : w.policy = e.config.unavailablePolicy)
    (means : ∀ i, (∀ n, ¬ f.Reacts i n) → V i = t.valueFrom w V i) :
    e.Coherent f (fun _ => True) w V :=
  ⟨hp, means, outer, policy, hn, hg, hs, hr ▸ Reactor.Coherent.fresh f w V hc hm⟩

theorem load {catalog : Catalog} {config : Config} (he : e = .load t catalog config)
    (outer : w.outer = e.scopes.lookup e.globals) (policy : w.policy = e.config.unavailablePolicy)
    (means : ∀ i, (∀ n, ¬ f.Reacts i n) → V i = t.valueFrom w V i) :
    e.Coherent f (fun _ => True) w V := by
  subst he
  exact fresh (r := .new catalog config) rfl Scopes.nested_root (Nat.lt_succ_self 0) rfl rfl rfl rfl
    outer policy means

/-- Replacing the tree or defining a global forgets everything. -/
theorem reset (hp : e.program = .ofTree t) (hs : e.stopped = false) (hn : e.scopes.Nested)
    (hg : e.globals < e.scopes.all.size) (outer : w.outer = e.scopes.lookup e.globals)
    (policy : w.policy = e.config.unavailablePolicy)
    (means : ∀ i, (∀ n, ¬ f.Reacts i n) → V i = t.valueFrom w V i) :
    e.reset.Coherent f (fun _ => True) w V := by
  refine fresh (e := e.reset) (r := e.reactor.invalidate) hp hn hg hs ?_ rfl rfl outer policy means
  simp only [Engine.reset, hs, hp]
  rfl

theorem between (h : e.Coherent f left w V) (hb : e.Between t e') : e'.Coherent f left w V where
  program := hb.alike.program.trans h.program
  means := h.means
  outer := by rw [hb.scopes, hb.alike.globals, h.outer]
  policy := by rw [hb.alike.config, h.policy]
  nested := hb.scopes ▸ h.nested
  globals := by rw [hb.scopes, hb.alike.globals]; exact h.globals
  running := hb.alike.stopped.trans h.running
  reactor := h.reactor.between hb.reactor

end Engine.Coherent

/-- A pass that has begun in a world with the values `V'` and is open. -/
structure Pass.Underway {t : Tree} (p : Pass) (before : Engine) (f : t.Focus) (left : NodeId → Prop)
    (w w' : World) (V V' : NodeId → Value) : Prop where
  isOpen : p.Open before p.setting.Faithful
  engine : p.engine.Coherent f left w V
  begun : Begun f left w w' V V' p.setting

/-- A machine has ended with a value and has come to the root in the world of its pass. -/
structure Machine.Arrived {t : Tree} (m : Machine) (f : t.Focus) (left : NodeId → Prop)
    (V : NodeId → Value) (s : Setting) (scopes : Scopes) (v : Value) : Prop where
  status : m.status = .ended (.ofValue v)
  value : f.known t.root → v = V t.root
  settled : f.known t.root → Settled left s m.record t.root
  traced : f.known t.root → t.Traced V s [t.root] .empty m.record
  sound : StreamLang.Sound f left V s m.record
  nested : m.scopes.Nested
  extends' : scopes.Extends m.scopes

namespace Begun

variable {t : Tree} {f : t.Focus} {left : NodeId → Prop} {w w' : World} {V V' : NodeId → Value}
  {s : Setting} {scopes : Scopes} (b : Begun f left w w' V V' s) (hroot : s.root = t.root)
  (hn : scopes.Nested) (hg : s.globals < scopes.all.size)
  (hout : w'.outer = scopes.lookup s.globals)
include hroot hn hg hout

/-- The root is entered where its names stand for globals. -/
theorem placed_root : Placed f left w' V' s s.root (scopes.addChild s.globals).1
    (State.initial s scopes) := by
  have accepted := f.inPlace.accepted
  have hp := accepted.parent_root
  rw [hroot]
  refine ⟨accepted.root_lt, accepted.live_root, ?_, Scopes.nested_addChild hn hg, ?_, ?_,
    fun hs => absurd hs (Tree.not_spent_top f.ordered hp), Sound.empty⟩
  · simp only [State.initial, Scopes.size_addChild]
    exact Nat.lt_succ_self _
  · intro name _
    rw [Tree.named, Tree.resolve_top hp, hout]
    exact Scopes.lookup_addChild hn hg name
  · intro p d c hpre hw
    rcases hw.cases_tail with rfl | ⟨q, -, hq⟩
    · have := f.ordered.parent_iff.2 hpre.later
      simp [hp] at this
    · have := f.ordered.parent_iff.2 hq
      simp [hp] at this

include b

/-- A machine that has ended with a value has come to the value of the root, if that is known, and what
it has recorded is worth that much. -/
theorem arrived (mindful : f.Mindful s) {k : Nat} {v : Value}
    (hP : ∀ j < k, ∀ i u, ((Machine.start scopes).run s false j).completing? s = some (i, u) →
      s.Faithful i u)
    (hv : ((Machine.start scopes).run s false k).endValue? = some v) :
    ((Machine.start scopes).run s false k).Arrived f left V' s scopes v := by
  obtain ⟨n, version, σ', he, hm⟩ := enters_of_run hP hv
  have placed : Placed f left w' V' s s.root _ _ := placed_root hroot hn hg hout
  have evaluated := b.evaluated mindful placed he
  rw [hroot] at evaluated
  have hm : (Machine.start scopes).run s false k = (busy n [] σ').handDown version v := hm
  rw [hm]
  exact ⟨rfl, evaluated.value, fun h => (evaluated.found h).settled.mono (.of_eq rfl rfl rfl),
    fun h => (evaluated.traced h).congr rfl rfl, evaluated.onwards.sound.of_eq rfl rfl rfl fun _ h => h,
    evaluated.onwards.nested, (Scopes.extends_addChild _ _).trans evaluated.onwards.scopes⟩

end Begun

namespace Pass

variable {p : Pass} {before e : Engine} {t : Tree} {f : t.Focus} {left : NodeId → Prop} {w w' : World}
  {V V' : NodeId → Value}

/-- What a tick has to heed, so that committed values of followed nodes hold: it confuses no values and
forgets of no steady node that it is dirty, and reactions are owed nothing. -/
structure Heeds (p : Pass) (f : t.Focus) : Prop where
  faithful : p.Faithful
  remembers : ∀ i, f.steady i → t.kind? i ≠ some .reaction → p.setting.cache.has i = true →
    p.setting.staleness.mark? i = some .dirty → ¬ p.Sweeps i
  mindful : f.Mindful p.setting

/-- The world in which a pass takes place that is opened on an engine. -/
def worldOf (e : Engine) : World :=
  ⟨(opened e).setting.snapshot, e.config.unavailablePolicy, e.scopes.lookup e.globals,
    (opened e).setting.cache.value?⟩

/-- A pass that is opened is underway in any world that differs from that of the pass in nothing that is
looked at, if the reactions have their turns in it. -/
theorem underway_opened (h : e.Coherent f left w V) (snapshot : w'.snapshot = (worldOf e).snapshot)
    (policy : w'.policy = (worldOf e).policy) (outer : w'.outer = (worldOf e).outer)
    (states : ∀ r n, f.Reacts r n → w'.states r = (worldOf e).states r)
    (means : ∀ i, (∀ n, ¬ f.Reacts i n) → V' i = t.valueFrom w' V' i)
    (turns : ∀ r n, f.Reacts r n → V' r = t.turn (opened e).setting.staleness w' V V' r n) :
    (opened e).Underway e f left w w' V V' := by
  have ho := h.between (Engine.between_opened h.program)
  refine ⟨open_opened e, ho, h.program, ho.reactor.kept,
    ⟨h.means, means, turns, states, h.outer.trans outer.symm, ?_⟩, snapshot, policy⟩
  intro i n stream mode hl hs hw hk hne
  refine (ho.reactor.attentive.seen i n stream mode hl hs hw hk fun heq => hne (heq.trans ?_)).resolve_right
    fun hi => by simpa [opened, Reactor.beginPass] using hi.2
  have hget : (w.now (opened e).engine.reactor.registry).snapshot.get? stream =
      w'.snapshot.get? stream := by
    rw [snapshot]
    rfl
  exact World.reading_of_entry hget (h.policy.trans policy.symm) i mode

/-- A pass begins in the world that its snapshot shows. -/
theorem underway_of_start (h : e.Coherent f left w V) (hs : Pass.start e = .ok p) :
    ∃ w' V', p.Underway e f left w w' V V' := by
  obtain ⟨-, rfl⟩ := start_eq_ok hs
  obtain ⟨V', means, turns⟩ := f.exists_turns (opened e).setting.staleness (worldOf e) V
  exact ⟨_, V', underway_opened h rfl rfl rfl (fun _ _ _ => rfl) means turns⟩

namespace Underway

variable (u : p.Underway before f left w w' V V')
include u

theorem sendDuring {stream : String} {v : Value} (hs : p.engine.send stream v = .ok e) :
    { p with engine := e }.Underway before f left w w' V V' :=
  ⟨u.isOpen.sendDuring hs, u.engine.between (Engine.between_send t hs), u.begun⟩

theorem requestAbort : { p with engine := p.engine.requestAbort }.Underway before f left w w' V V' :=
  ⟨u.isOpen.requestAbort, u.engine.between (Engine.between_requestAbort t _), u.begun⟩

theorem root : p.setting.root = t.root := by
  rw [u.isOpen.root, u.engine.program]
  rfl

theorem outer : w'.outer = before.scopes.lookup p.setting.globals := by
  rw [← u.begun.renewed.outer, u.engine.outer, u.isOpen.scopes, u.isOpen.globals]

theorem nested : before.scopes.Nested := u.isOpen.scopes ▸ u.engine.nested

theorem globals_lt : p.setting.globals < before.scopes.all.size := by
  rw [u.isOpen.globals, ← u.isOpen.scopes]
  exact u.engine.globals

theorem coherent_abandon : p.abandon.engine.Coherent f left w V :=
  u.engine.between (u.isOpen.abandon t)

theorem tree_eq : p.setting.program.tree = t := by
  rw [u.begun.program]
  rfl

/-- A tick goes on with a pass, drops it or commits it. -/
theorem tick (hf : p.Faithful) : p.tick.setting = p.setting ∧
    (p.tick.Underway before f left w w' V V' ∧ p.tick.engine = p.engine ∨
      p.tick.Settled ∧ (p.Dropped p.tick ∨ ∃ k v, p.Committed p.tick before p.setting.Faithful k v)) := by
  obtain ⟨hsetting, h⟩ := u.isOpen.tick hf
  exact ⟨hsetting, h.imp_left fun ⟨ho, he⟩ => ⟨⟨hsetting ▸ ho, he ▸ u.engine, hsetting ▸ u.begun⟩, he⟩⟩

section Committed

variable {q : Pass} {k : Nat} {v : Value} (h : p.Committed q before p.setting.Faithful k v)
include h

/-- What the machine has recorded when it ends is worth that much. -/
theorem arrived_of_committed (mindful : f.Mindful p.setting) :
    p.next.Arrived f left V' p.setting before.scopes v := by
  obtain ⟨hm, hallowed, hv⟩ := h.concluded
  rw [hm] at hv ⊢
  exact u.begun.arrived u.root u.nested u.globals_lt u.outer mindful hallowed hv

/-- After a commit the world of the pass is the one seen last. -/
theorem coherent_of_committed (heeds : p.Heeds f) : q.engine.Coherent f
    (LeftAfter left p.next.record q.engine.reactor.staleness) w' V' := by
  have arrived := u.arrived_of_committed h heeds.mindful
  have hg : p.engine.globals < before.scopes.all.size := u.isOpen.scopes ▸ u.engine.globals
  have htree : p.engine.program.tree = t := by
    rw [u.engine.program]
    rfl
  have hr := u.begun.coherent_commit arrived.sound heeds.mindful arrived.settled u.engine.reactor
    u.isOpen.cache u.isOpen.staleness u.isOpen.snapshot fun i e hi hk he hm hn => by
      by_contra hw
      have swept : ¬ p.Sweeps i := heeds.remembers i hi hk (by simp [Cache.has, he]) hm
      have marked := Reactor.mark?_of_not_sweeps f.ordered hw
        (fun hsw => swept ⟨u.isOpen.unfinished, by simp [h.concluded.value], htree.symm ▸ hsw⟩)
        (by simp [← u.isOpen.staleness, hm])
      rw [hn] at marked
      cases marked
  have hreactor : q.engine.reactor = p.engine.reactor.commit t p.setting.snapshot p.next.record :=
    htree ▸ h.reactor
  rw [← hreactor] at hr
  refine ⟨h.alike.program.trans u.engine.program, u.begun.renewed.after, ?_, ?_,
    h.scopes ▸ arrived.nested, ?_, h.alike.stopped.trans u.engine.running, hr⟩
  · funext name
    rw [u.outer, u.isOpen.globals, h.alike.globals, h.scopes]
    exact (arrived.extends'.lookup u.nested arrived.nested name _ hg).symm
  · rw [h.alike.config, ← u.isOpen.policy, u.begun.policy]
  · rw [h.scopes, h.alike.globals]
    exact Nat.lt_of_lt_of_le hg arrived.extends'.size_le

end Committed
end Underway
end Pass
end StreamLang
