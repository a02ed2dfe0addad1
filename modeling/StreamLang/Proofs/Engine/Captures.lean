import Mathlib.Tactic.MkIffOfInductiveProp
import StreamLang.Proofs.Closures
import StreamLang.Proofs.Engine.Regular
import StreamLang.Proofs.Machine.Preserved
/-!
What functions see that are called in later passes. A function keeps the scope that it was made in,
and once the pass that filled a scope has committed, nothing is bound there any more. So a committed
function that stands in for a new one sees what names meant when it was made, not what they mean in
the pass that calls it.
-/
namespace StreamLang

open Machine

/-- What a name means in the body of a function that is called with arguments. -/
def Closure.shows (c : Closure) (scopes : Scopes) (arguments : List Value) (name : String) :
    Option Value :=
  let (scope, scopes) := scopes.addChild c.scope
  (scopes.defineAll scope (c.parameters.zip arguments)).lookup scope name

/-- Scopes lie inside older ones, and one of them is for the globals. -/
structure Engine.Housed (e : Engine) : Prop where
  nested : e.scopes.Nested
  globals : e.globals < e.scopes.all.size

theorem Engine.Housed.of_eq {e e' : Engine} (h : e.Housed) (scopes : e'.scopes = e.scopes)
    (globals : e'.globals = e.globals) : e'.Housed :=
  ⟨scopes ▸ h.nested, globals ▸ scopes ▸ h.globals⟩

theorem Engine.housed_new {t : Tree} {catalog : Catalog} {config : Config} {e : Engine}
    (h : Engine.new t catalog config = .ok e) : e.Housed := by
  obtain ⟨config', rfl⟩ := new_eq_ok h
  exact ⟨Scopes.nested_root, Nat.lt_succ_self 0⟩

/-- An open pass has left the scopes alone that there were before it. -/
theorem Pass.Open.preserves {p : Pass} {before : Engine} {P : NodeId → Value → Prop}
    (o : p.Open before P) (h : p.engine.Housed) : p.machine.Preserves p.engine.scopes := by
  obtain ⟨k, hk, -⟩ := o.machine
  rw [hk, ← o.scopes]
  exact preserves_run h.nested (o.globals ▸ h.globals) false k

namespace Stage

/-- The step defines a global. -/
def Defines (s s' : Stage) : Prop := ∃ e name v, s = idle e ∧ s' = idle (e.defineGlobal name v)

variable {fair : Pass → Prop} {s s' : Stage}

/-- A step adds scopes and keeps all there were, unless it defines a global. -/
theorem housed_step (r : s.Regular) (h : s.engine.Housed) (hs : Step Tree.Accepted fair s s') :
    s'.engine.Housed ∧ (¬ Defines s s' → s.engine.scopes.Extends s'.engine.scopes) := by
  have same (scopes : s'.engine.scopes = s.engine.scopes)
      (globals : s'.engine.globals = s.engine.globals) :
      s'.engine.Housed ∧ (¬ Defines s s' → s.engine.scopes.Extends s'.engine.scopes) :=
    ⟨h.of_eq scopes globals, fun _ => scopes ▸ .refl _⟩
  cases hs with
  | @addEvent e e' stream v hs =>
    have hb := Engine.between_addEvent e.program.tree hs
    exact same hb.scopes hb.alike.globals
  | setAvailable hs =>
    obtain ⟨t, r⟩ := r
    have hb := Engine.between_setAvailable r.program hs
    exact same hb.scopes hb.alike.globals
  | @defineGlobal e name v =>
    refine ⟨⟨Scopes.nested_define h.nested e.globals name v, ?_⟩, fun hd => ?_⟩
    · exact Nat.lt_of_lt_of_eq h.globals (Scopes.size_define e.scopes e.globals name v).symm
    · exact absurd ⟨e, name, v, rfl, rfl⟩ hd
  | replaceTree ht => exact same rfl rfl
  | start hs =>
    obtain ⟨-, rfl⟩ := Pass.start_eq_ok hs
    exact same rfl rfl
  | @tick before p hf =>
    obtain ⟨-, ⟨o, -⟩ | hp⟩ := r
    · obtain ⟨-, ⟨-, he⟩ | ⟨-, hd | ⟨k, v, hc⟩⟩⟩ := o.tick fun _ _ _ => trivial
      · exact same (congrArg Engine.scopes he) (congrArg Engine.globals he)
      · exact same hd.scopes hd.alike.globals
      · have kept : p.next.Preserves p.engine.scopes :=
          (Preserves.invariant (o.globals ▸ h.globals)).tick (o.preserves h) _
        have hscopes : p.tick.engine.scopes = p.next.scopes := hc.scopes
        have hextends : p.engine.scopes.Extends p.tick.engine.scopes := hscopes ▸ kept.kept
        refine ⟨⟨hscopes ▸ kept.nested, ?_⟩, fun _ => hextends⟩
        have hglobals : p.tick.engine.globals = p.engine.globals := hc.alike.globals
        exact Nat.lt_of_lt_of_le (hglobals ▸ h.globals) hextends.size_le
    · rw [hp.tick]
      exact ⟨h, fun _ => .refl _⟩
  | @sendDuring before p e' stream v hs =>
    have hb := Engine.between_send p.engine.program.tree hs
    exact same hb.scopes hb.alike.globals
  | requestAbort => exact same rfl rfl
  | @leave before p =>
    obtain ⟨-, ⟨o, -⟩ | hp⟩ := r
    · have hb := o.abandon p.engine.program.tree
      exact same hb.scopes hb.alike.globals
    · have : p.abandon = p := if_pos hp.finished
      exact same (by rw [Stage.engine, this, engine_busy]) (by rw [Stage.engine, this, engine_busy])

theorem Reached.housed (h : Reached Tree.Accepted fair s) : s.Regular ∧ s.engine.Housed :=
  h.induction (C := fun s => s.Regular ∧ s.engine.Housed)
    (fun t _ _ _ ht he => ⟨⟨t, .new ht.ordered he⟩, Engine.housed_new he⟩)
    fun _ _ h hs => ⟨h.1.step hs, (housed_step h.1 h.2 hs).1⟩

end Stage

/-- Trees without conditionals, reactions and previous values. -/
def Tree.Functional (t : Tree) : Prop :=
  t.Accepted ∧ ∀ i k, t.kind? i = some k → k ≠ .conditional ∧ k ≠ .reaction ∧ k ≠ .previous

/-! A function that says what a name means, with a name that is bound again after it. -/

namespace Rebound

def draft : Draft :=
  ⟨#[⟨.text "", [], none, none⟩, ⟨.bind "x", [0], none, none⟩, ⟨.reference "x", [], none, none⟩,
    ⟨.function ["p"], [2], none, none⟩, ⟨.bind "f", [3], none, none⟩,
    ⟨.stream "keyboard", [], none, none⟩, ⟨.bind "x", [5], none, none⟩,
    ⟨.reference "f", [], none, none⟩, ⟨.stream "keyboard", [], none, none⟩,
    ⟨.call, [7, 8], none, none⟩, ⟨.block, [1, 4, 6, 9], none, none⟩]⟩

def tree : Tree := ((draft.finish 10).toOption).getD ⟨#[], 0⟩

def catalog : Catalog := ⟨[("keyboard", ⟨"keyboard", .push, .text, .text ""⟩)]⟩

/-- The engine before its first pass. -/
def fresh : Engine := .load tree catalog .default

def first : Pass := Nat.iterate Pass.tick 37 (.opened fresh)

/-- After the first pass. -/
def ready : Engine := first.abandon.engine

/-- After the first pass and a key. -/
def typed : Engine := ready.told "keyboard" (.text "k")

def second : Pass := Nat.iterate Pass.tick 27 (.opened typed)

/-- What can be read off the program and its two passes. -/
@[mk_iff]
structure Checked : Prop where
  built : draft.finish 10 = .ok tree
  kinds : ∀ n ∈ tree.nodes, n.kind ≠ .conditional ∧ n.kind ≠ .reaction ∧ n.kind ≠ .previous
  first_apart : ∀ k < 37, (Nat.iterate Pass.tick k (.opened fresh)).apart = true
  second_apart : ∀ k < 27, (Nat.iterate Pass.tick k (.opened typed)).apart = true
  key_told : (ready.addEvent "keyboard" (.text "k")).toOption.isSome = true
  runs : typed.stopped = false ∧ typed.config.conflictPolicy = .attach
  ended : second.machine.terminal?.any (Terminal.equal · (.done (.text ""))) = true
  scratch : ((Machine.start typed.scopes).finish (second.setting.scratch 100) false).terminal?.any
    (Terminal.equal · (.done (.text "k"))) = true

theorem checked : Checked := checked_iff.2 (by decide +kernel)

theorem functional : tree.Functional := by
  refine ⟨⟨draft, 10, checked.built⟩, fun i k hk => ?_⟩
  obtain ⟨n, hn, rfl⟩ := Option.map_eq_some_iff.1 hk
  exact checked.kinds n (Array.mem_of_getElem? hn)

theorem faithful_first : ∀ k < 37, (Nat.iterate Pass.tick k (.opened fresh)).Faithful :=
  fun k hk => Pass.faithful_of_apart (checked.first_apart k hk)

theorem faithful_second : ∀ k < 27, (Nat.iterate Pass.tick k (.opened typed)).Faithful :=
  fun k hk => Pass.faithful_of_apart (checked.second_apart k hk)

theorem reached_ready : Stage.Reached Tree.Functional Pass.Faithful (.idle ready) := by
  have hnew : Engine.new tree catalog .default = .ok fresh := rfl
  have hstart : Pass.start fresh = .ok (.opened fresh) := rfl
  exact (((Stage.Reached.new functional hnew).step (.start hstart)).ticks 37 faithful_first).step
    .leave

theorem told : ready.addEvent "keyboard" (.text "k") = .ok typed :=
  Engine.addEvent_eq_ok checked.key_told

theorem start_typed : Pass.start typed = .ok (.opened typed) :=
  Pass.start_eq_opened checked.runs.1 checked.runs.2

theorem reached_second : Stage.Reached Tree.Functional Pass.Faithful (.busy typed second) :=
  ((reached_ready.step (.addEvent told)).step (.start start_typed)).ticks 27 faithful_second

end Rebound

end StreamLang
