import Mathlib.Tactic.MkIffOfInductiveProp
import StreamLang.Proofs.Engine.Coherent
/-!
What is committed fits the world seen last throughout a session. Main statement: over plain trees whose
conditionals depend on nothing outside, using committed values again makes no difference. However a
session went, a pass that ends with a value ends as it would from scratch.
-/
namespace StreamLang

open Machine

/-- Plain trees whose conditionals depend on nothing outside. -/
def Tree.Incremental (t : Tree) : Prop := t.Plain ∧ t.Selfcontained

/-- Where there are no reactions to follow, none is owed anything. -/
theorem Tree.Focus.mindful_stateless {t : Tree} {h : t.InPlace} (s : Setting) :
    (Focus.stateless h).Mindful s :=
  ⟨fun _ _ _ _ hr => absurd hr not_reacts_stateless, fun _ _ _ hr => absurd hr not_reacts_stateless⟩

/-- From scratch a stateless root comes to its value in the world of the pass. -/
theorem Begun.scratch {t : Tree} {ht : t.InPlace} {left : NodeId → Prop} {w w' : World}
    {V V' : NodeId → Value} {s : Setting} {scopes : Scopes}
    (b : Begun (.stateless ht) left w w' V V' s) (hroot : s.root = t.root) (hn : scopes.Nested)
    (hg : s.globals < scopes.all.size) (hout : w'.outer = scopes.lookup s.globals)
    (hs : t.Stateless t.root) : ∃ needed, ∀ budget, needed ≤ budget →
    ((Machine.start scopes).finish (s.scratch budget) false).status =
      .ended (.ofValue (V' t.root)) := by
  let s₀ := s.scratch 0
  have b₀ : Begun (.stateless ht) (fun _ => True) w' w' V' V' s₀ :=
    ⟨b.program, Kept.empty _ V', ⟨b.renewed.after, b.renewed.after,
      fun _ _ hr => absurd hr Tree.Focus.not_reacts_stateless,
      fun _ _ hr => absurd hr Tree.Focus.not_reacts_stateless, rfl,
      fun _ _ _ _ hl => absurd trivial hl⟩, b.snapshot, b.policy⟩
  have faithful (i : NodeId) (v : Value) : s₀.Faithful i v := fun _ u hu => by
    simp [s₀, Setting.scratch, Cache.value?] at hu
  have placed : Placed (.stateless ht) (fun _ => True) w' V' s₀ s₀.root _ _ :=
    Begun.placed_root hroot hn hg hout
  obtain ⟨v, version, σ', he⟩ := exists_enters b₀.tree_eq ht.ordered ht.callFree
    faithful placed.lt _ (State.initial s₀ scopes)
  have hv := (b₀.evaluated (Tree.Focus.mindful_stateless s₀) placed he).value (hroot.symm ▸ hs)
  rw [← hroot]
  exact hv ▸ finish_of_enters he

/-- What an engine has committed for stateless nodes fits some world. -/
def Engine.IsCoherent (e : Engine) (t : Tree) : Prop :=
  ∃ (ht : t.InPlace) (left : NodeId → Prop) (w : World) (V : NodeId → Value),
    e.Coherent (.stateless ht) left w V

namespace Engine

variable {e e' : Engine} {t : Tree}

/-- Some world has the globals of an engine, and values for all nodes. -/
theorem exists_world (ht : t.InPlace) (e : Engine) : ∃ w V, t.Means w V ∧
    w.outer = e.scopes.lookup e.globals ∧ w.policy = e.config.unavailablePolicy := by
  let w : World :=
    ⟨e.reactor.registry.snapshot 0, e.config.unavailablePolicy, e.scopes.lookup e.globals, fun _ => none⟩
  obtain ⟨V, hV⟩ := ht.ordered.exists_means ht.isFunction w
  exact ⟨w, V, hV, rfl, rfl⟩

/-- A new engine has the configuration that was asked for. -/
theorem eq_load_of_new {catalog : Catalog} {config : Config}
    (h : Engine.new t catalog config = .ok e) : e = .load t catalog config := by
  unfold Engine.new at h
  obtain ⟨config', hc, he⟩ := of_bind_eq_ok h
  unfold Config.validate at hc
  split at hc
  · cases hc
  · split at hc
    · cases hc
    · cases hc
      exact (Except.ok.inj he).symm

theorem isCoherent_new {catalog : Catalog} {config : Config} (ht : t.InPlace)
    (h : Engine.new t catalog config = .ok e) : e.IsCoherent t := by
  obtain ⟨w, V, means, outer, policy⟩ := exists_world ht e
  exact ⟨ht, _, w, V, .load (eq_load_of_new h) outer policy fun i _ => means i⟩

theorem isCoherent_reset (hp : e.program = .ofTree t) (ht : t.InPlace) (hs : e.stopped = false)
    (hn : e.scopes.Nested) (hg : e.globals < e.scopes.all.size) : e.reset.IsCoherent t := by
  obtain ⟨w, V, means, outer, policy⟩ := exists_world ht e
  exact ⟨ht, _, w, V, .reset hp hs hn hg outer policy fun i _ => means i⟩

namespace IsCoherent

variable (h : e.IsCoherent t)
include h

theorem between (hb : e.Between t e') : e'.IsCoherent t := by
  obtain ⟨ht, left, w, V, h⟩ := h
  exact ⟨ht, left, w, V, h.between hb⟩

theorem program : e.program = .ofTree t := by
  obtain ⟨ht, left, w, V, h⟩ := h
  exact h.program

theorem defineGlobal (name : String) (v : Value) : (e.defineGlobal name v).IsCoherent t := by
  obtain ⟨ht, left, w, V, h⟩ := h
  exact isCoherent_reset (e := { e with scopes := e.scopes.define e.globals name v }) h.program ht
    h.running (Scopes.nested_define h.nested _ _ _) (by simpa using h.globals)

theorem replaceTree {t' : Tree} (ht : t'.InPlace) : (e.replaceTree t').IsCoherent t' := by
  obtain ⟨_, left, w, V, h⟩ := h
  exact isCoherent_reset (e := { e with program := .ofTree t', evaluations := ∅ }) rfl ht h.running
    h.nested h.globals

end IsCoherent
end Engine

namespace Pass

variable {p : Pass} {before : Engine} {t : Tree} {ht : t.InPlace} {left : NodeId → Prop} {w w' : World}
  {V V' : NodeId → Value}

/-- What holds of a pass that is over: the engine after it is coherent, and the value of the root,
if it has one and the root is stateless, is what an evaluation from scratch comes to. -/
structure Over (p : Pass) (before : Engine) (t : Tree) : Prop where
  settled : p.Settled
  engine : p.engine.IsCoherent t
  value : t.Stateless t.root → ∀ T v, p.machine.status = .ended T → T.value? = some v → ∃ needed, ∀ budget,
    needed ≤ budget →
      ((Machine.start before.scopes).finish (p.setting.scratch budget) false).status = .ended T

theorem Careful.heeds (h : p.Careful) (htree : p.setting.program.tree = t) :
    p.Heeds (.stateless ht) where
  faithful := h.faithful
  remembers i hi _ hc hm := h.remembers i (htree.symm ▸ hi) hc hm
  mindful := Tree.Focus.mindful_stateless p.setting

namespace Underway

variable (u : p.Underway before (.stateless ht) left w w' V V')
include u

/-- A dropped pass keeps the invariant. -/
theorem over_of_dropped {q : Pass} (hq : q.Settled) (h : p.Dropped q) : q.Over before t := by
  refine ⟨hq, ⟨ht, left, w, V, u.engine.between (h.engine t)⟩, fun _ T v hT hv => ?_⟩
  rw [h.value T hT] at hv
  cases hv

/-- After a commit the world of the pass is the one seen last. -/
theorem over_of_committed {q : Pass} {k : Nat} {v : Value}
    (h : p.Committed q before p.setting.Faithful k v) (hq : q.Settled)
    (hsetting : q.setting = p.setting) (careful : p.Careful) : q.Over before t := by
  have heeds : p.Heeds (.stateless ht) := careful.heeds u.tree_eq
  refine ⟨hq, ⟨ht, _, w', V', u.coherent_of_committed h heeds⟩, fun hroot T v' hT _ => ?_⟩
  have arrived := u.arrived_of_committed h heeds.mindful
  rw [h.status, arrived.status] at hT
  obtain rfl := Status.ended.inj hT
  rw [hsetting, arrived.value hroot]
  exact u.begun.scratch u.root u.nested u.globals_lt u.outer hroot

/-- A tick goes on with a pass or ends it. -/
theorem tick_or_over (careful : p.Careful) :
    p.tick.Underway before (.stateless ht) left w w' V V' ∨ p.tick.Over before t := by
  obtain ⟨hsetting, ⟨h, -⟩ | ⟨hq, hd | ⟨k, v, hc⟩⟩⟩ := u.tick careful.faithful
  · exact .inl h
  · exact .inr (u.over_of_dropped hq hd)
  · exact .inr (u.over_of_committed hc hq hsetting careful)

end Underway

/-- In a plain tree whose conditionals depend on nothing outside, no tick takes the mark off a dirty
node in error. -/
theorem Underway.remembers_of_incremental (plain : t.Plain) (hself : t.Selfcontained)
    (u : p.Underway before (.stateless plain.inPlace) left w w' V V') (hf : p.Faithful) : p.Remembers := by
  rintro i - hhas hm ⟨-, hv, hsw⟩
  obtain ⟨v, hv⟩ := Option.isSome_iff_exists.1 hv
  obtain ⟨k, h⟩ := u.isOpen.committed hf hv
  have arrived := u.arrived_of_committed h (Tree.Focus.mindful_stateless p.setting)
  have htree : p.engine.program.tree = t := by
    rw [u.engine.program]
    rfl
  rw [htree] at hsw
  have o := plain.ordered
  have c := p.engine.reactor.commit_cleans o p.setting.snapshot p.next.record
  rw [← u.isOpen.staleness] at c
  obtain ⟨e, he⟩ := Option.isSome_iff_exists.1 hhas
  exact hsw.1 (plain.spares hself u.begun.kept arrived.sound c i e he hm (Reactor.mark?_of_sweeps o hsw))

end Pass

namespace Stage

/-- What holds of a session between passes and in them. -/
def Coherent (good : Tree → Prop) : Stage → Prop
  | idle e => ∃ t, good t ∧ e.IsCoherent t
  | busy before p => ∃ t, good t ∧
    ((∃ (ht : t.InPlace) (left : NodeId → Prop) (w w' : World) (V V' : NodeId → Value),
      p.Underway before (.stateless ht) left w w' V V') ∨ p.Over before t)

variable {admits : Tree → Prop} {fair : Pass → Prop} {s s' : Stage} {before : Engine} {p : Pass}

/-- Every step keeps what holds of a session, if ticks confuse no values and forget of none that it is
dirty. -/
theorem Coherent.step (inPlace : ∀ t, admits t → t.InPlace)
    (careful : ∀ before p, Coherent admits (busy before p) → fair p → p.Careful)
    (h : s.Coherent admits) (hs : Step admits fair s s') : s'.Coherent admits := by
  cases hs with
  | addEvent hs =>
    obtain ⟨t, ht, h⟩ := h
    exact ⟨t, ht, h.between (Engine.between_addEvent t hs)⟩
  | setAvailable hs =>
    obtain ⟨t, ht, h⟩ := h
    exact ⟨t, ht, h.between (Engine.between_setAvailable h.program hs)⟩
  | defineGlobal name v =>
    obtain ⟨t, ht, h⟩ := h
    exact ⟨t, ht, h.defineGlobal name v⟩
  | replaceTree ht =>
    obtain ⟨t, -, h⟩ := h
    exact ⟨_, ht, h.replaceTree (inPlace _ ht)⟩
  | start hs =>
    obtain ⟨t, ht, hi, left, w, V, h⟩ := h
    obtain ⟨w', V', hu⟩ := Pass.underway_of_start h hs
    exact ⟨t, ht, .inl ⟨hi, left, w, w', V, V', hu⟩⟩
  | @tick before p hf =>
    have careful := careful before p h hf
    obtain ⟨t, ht, ⟨hi, left, w, w', V, V', h⟩ | h⟩ := h
    · exact ⟨t, ht, (h.tick_or_over careful).imp (fun h => ⟨hi, left, w, w', V, V', h⟩) id⟩
    · rw [Coherent, h.settled.tick]
      exact ⟨t, ht, .inr h⟩
  | sendDuring hs =>
    obtain ⟨t, ht, ⟨hi, left, w, w', V, V', h⟩ | h⟩ := h
    · exact ⟨t, ht, .inl ⟨hi, left, w, w', V, V', h.sendDuring hs⟩⟩
    · exact ⟨t, ht, .inr ⟨⟨h.settled.finished, h.settled.ended⟩,
        h.engine.between (Engine.between_send t hs), h.value⟩⟩
  | requestAbort =>
    obtain ⟨t, ht, ⟨hi, left, w, w', V, V', h⟩ | h⟩ := h
    · exact ⟨t, ht, .inl ⟨hi, left, w, w', V, V', h.requestAbort⟩⟩
    · exact ⟨t, ht, .inr ⟨⟨h.settled.finished, h.settled.ended⟩,
        h.engine.between (Engine.between_requestAbort t _), h.value⟩⟩
  | leave =>
    obtain ⟨t, ht, ⟨hi, left, w, w', V, V', h⟩ | h⟩ := h
    · exact ⟨t, ht, hi, left, w, V, h.coherent_abandon⟩
    · rw [Coherent, Pass.abandon, if_pos h.settled.finished]
      exact ⟨t, ht, h.engine⟩

theorem Reached.coherent (h : Reached Tree.InPlace Pass.Careful s) : s.Coherent Tree.InPlace :=
  h.induction (fun t _ _ _ ht he => ⟨t, ht, Engine.isCoherent_new ht he⟩) fun _ _ h hs =>
    h.step (fun _ ht => ht) (fun _ _ _ hf => hf) hs

/-- In plain trees whose conditionals depend on nothing outside, it is enough that no values are
confused. -/
theorem Reached.coherent_of_incremental (h : Reached Tree.Incremental Pass.Faithful s) :
    s.Coherent Tree.Incremental := by
  refine h.induction (fun t _ _ _ ht he => ⟨t, ht, Engine.isCoherent_new ht.1.inPlace he⟩)
    fun _ _ h hs => h.step (fun _ ht => ht.1.inPlace) (fun before p h hf => ⟨hf, ?_⟩) hs
  obtain ⟨t, ht, ⟨_, left, w, w', V, V', u⟩ | h⟩ := h
  · exact u.remembers_of_incremental ht.1 ht.2 hf
  · rintro i - - - ⟨hunfinished, -⟩
    rw [h.settled.finished] at hunfinished
    cases hunfinished

/-- A pass that ends with a value ends as it would from scratch, on the same tree, globals and
snapshot, if only the budget is large enough. -/
theorem Reached.status_from_scratch {T : Terminal} {v : Value}
    (h : Reached Tree.Incremental Pass.Faithful (busy before p))
    (hT : p.machine.status = .ended T) (hv : T.value? = some v) :
    ∃ needed, ∀ budget, needed ≤ budget →
      ((Machine.start before.scopes).finish (p.setting.scratch budget) false).status =
        .ended T := by
  obtain ⟨t, ht, ⟨hi, left, w, w', V, V', h⟩ | h⟩ := h.coherent_of_incremental
  · have := h.isOpen.isRunning
    simp [Machine.isRunning, hT] at this
  · exact h.value (ht.1.stateless t.root) T v hT hv

end Stage

/-! A program that repeats what is typed, after its first pass and a key. -/

namespace Echo

def draft : Draft :=
  ⟨#[⟨.stream "keyboard", [], none, none⟩, ⟨.bind "typed", [0], none, none⟩,
    ⟨.reference "typed", [], none, none⟩, ⟨.text "!", [], none, none⟩, ⟨.list, [2, 3], none, none⟩,
    ⟨.block, [1, 4], none, none⟩]⟩

def tree : Tree := ((draft.finish 5).toOption).getD ⟨#[], 0⟩

def catalog : Catalog := ⟨[("keyboard", ⟨"keyboard", .push, .text, .text ""⟩)]⟩

/-- The engine before its first pass. -/
def fresh : Engine := .load tree catalog .default

/-- After the first pass. -/
def ready : Engine := (Pass.opened fresh).toEnd.abandon.engine

/-- After the first pass and a key. -/
def typed : Engine := ((ready.addEvent "keyboard" (.text "k")).toOption).getD ready

def isText : Value → Bool
  | .text _ => true
  | _ => false

/-- What can be read off the program and its two passes. -/
@[mk_iff]
structure Checked : Prop where
  built : draft.finish 5 = .ok tree
  kinds : tree.nodes.all (·.kind.isPlain) = true
  selfcontained : tree.Selfcontained
  binds : ∀ i ∈ tree.ids, tree.kindIs NodeKind.isBind i = true → i = 1
  told : (ready.addEvent "keyboard" (.text "k")).toOption.isSome = true
  runs : typed.stopped = false ∧ typed.config.conflictPolicy = .attach
  trees : (Pass.opened fresh).setting.program.tree = tree ∧
    (Pass.opened typed).setting.program.tree = tree
  texts : ((Pass.opened fresh).setting.cache.value? 1).all isText = true ∧
    ((Pass.opened typed).setting.cache.value? 1).all isText = true
  ended : (Pass.opened typed).toEnd.machine.terminal?.any
    (Terminal.equal · (.done (.list [.text "k", .text "!"]))) = true

theorem checked : Checked := checked_iff.2 (by decide +kernel)

theorem incremental : tree.Incremental := ⟨.of_all checked.built checked.kinds, checked.selfcontained⟩

/-- A text is found equal to itself only. -/
theorem eq_of_isText {u v : Value} (h : isText u = true) (heq : u.equal v = true) : u = v := by
  cases u <;> simp only [isText, Bool.false_eq_true] at h
  cases v <;> simp_all [Value.equal]

/-- As long as the bind has a text, it is confused with no other value. -/
theorem faithful_of_text {p : Pass} (hp : p.setting.program.tree = tree)
    (h : (p.setting.cache.value? 1).all isText = true) (n : Nat) :
    (Nat.iterate Pass.tick n p).Faithful := by
  intro i v _ hbind u hu heq
  rw [Pass.setting_iterate_tick] at hbind hu
  rw [hp] at hbind
  have hi : i < tree.size := by
    rw [Tree.lt_size_iff]
    cases hn : tree.node? i with
    | none => simp [Tree.kindIs, Tree.kind?, hn] at hbind
    | some n => rfl
  obtain rfl := checked.binds i (List.mem_range.2 hi) hbind
  rw [hu] at h
  exact eq_of_isText h heq

theorem reached : Stage.Reached Tree.Incremental Pass.Faithful
    (.busy typed (Pass.opened typed).toEnd) := by
  have hnew : Engine.new tree catalog .default = .ok fresh := rfl
  have hfirst : Pass.start fresh = .ok (Pass.opened fresh) := rfl
  have hkey : ready.addEvent "keyboard" (.text "k") = .ok typed :=
    Engine.eq_ok_of_isSome checked.told
  have hsecond : Pass.start typed = .ok (Pass.opened typed) :=
    Pass.start_eq_opened checked.runs.1 checked.runs.2
  have first : Stage.Reached Tree.Incremental Pass.Faithful (.busy fresh (Pass.opened fresh).toEnd) :=
    ((Stage.Reached.new incremental hnew).step (.start hfirst)).toEnd rfl
      (faithful_of_text checked.trees.1 checked.texts.1)
  exact (((first.step .leave).step (.addEvent hkey)).step (.start hsecond)).toEnd rfl
    (faithful_of_text checked.trees.2 checked.texts.2)

end Echo

/-- In the second pass of the program the list is new and the mark after it is not. -/
theorem Stage.Reached.echo_from_scratch : ∃ v,
    (Pass.opened Echo.typed).toEnd.machine.status = .ended (.done v) ∧
      v.equal (.list [.text "k", .text "!"]) = true ∧ ∃ needed, ∀ budget, needed ≤ budget →
        ((Machine.start Echo.typed.scopes).finish
          ((Pass.opened Echo.typed).toEnd.setting.scratch budget) false).status =
            .ended (.done v) := by
  obtain ⟨T, hT, hv⟩ := (Option.any_eq_true _ _).1 Echo.checked.ended
  have hT := Machine.status_of_terminal? hT
  cases T with
  | done v => exact ⟨v, hT, hv, Stage.Reached.status_from_scratch Echo.reached hT rfl⟩
  | exception v => cases hv
  | budgetExceeded => cases hv
  | aborted => cases hv

end StreamLang
