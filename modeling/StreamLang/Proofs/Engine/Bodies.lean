import StreamLang.Proofs.Engine.Confinement
import StreamLang.Proofs.Engine.Unreached
import StreamLang.Proofs.Machine.Budget
import StreamLang.Proofs.Machine.Naming
/-!
Which code a call runs. A function value names its body by a number. As long as the program stays, all
functions that the engine comes by are those that it had and those that the program makes, and a call of
the latter runs the one part of a function node, with the parameters of that node. A function that is kept
while the program is replaced has kept the number, though, and runs whatever has it in the new program.
-/
namespace StreamLang

/-- So its body is a node of the program. -/
theorem Closure.Of.body_lt {t : Tree} {c : Closure} (h : c.Of t) (o : t.Ordered) : c.body < t.size := by
  have hlt := o.child_lt (h.body ▸ List.mem_singleton_self c.body)
  exact Nat.lt_trans hlt (Tree.lt_size_of_kind h.kind)

namespace Machine

variable {s : Setting} {m : Machine} {f : Frame} {rest : List Frame}

/-- A step by which the body of a function is run: it gets the new frame on top, in a new scope inside the
one that the function has kept, where its parameters stand for the arguments. -/
structure RunsBody (t : Tree) (m : Machine) (f : Frame) (rest : List Frame) (c : Closure)
    (arguments : List Value) (m' : Machine) : Prop where
  held : .function c ∈ f.values
  arity : c.parameters.length = arguments.length
  frames : ∃ g, f.Resumes g ∧
    m'.frames = .start c.body (t.steps c.body) m.scopes.all.size :: g :: rest
  scopes : m'.scopes = (m.scopes.addChild c.scope).2.defineAll m.scopes.all.size
    (c.parameters.zip arguments)

/-- A call puts no frame on the stack but for the body of a function among the values of the frame, and
none at all if that body is not in the tree. -/
theorem runs_of_call (hm : m.frames = f :: rest) {count : Nat}
    (hcall : f.steps[f.cursor]? = some (.apply (.call count))) (started : m.started = true)
    (abort : Bool) : (m.tick s abort).frames.length ≤ m.frames.length ∨
      ∃ c arguments, RunsBody s.program.tree m f rest c arguments (m.tick s abort) := by
  generalize hm' : m.tick s abort = m'
  cases ticked hm' with
  | ended => exact .inl (Nat.le_refl _)
  | cutOff => exact .inl (Nat.zero_le _)
  | entered h =>
    rw [started] at h
    cases h
  | failed => exact .inl (Nat.le_refl _)
  | executed h ha =>
    rw [hm] at h
    obtain ⟨rfl, rfl⟩ := List.cons.inj h
    rw [hcall] at ha
    obtain rfl := Option.some.inj ha
    simp only [execute]
    rcases applyCall_cases s (m.setRecord m.record.countStep) f rest count with
      ⟨-, ⟨fault, h⟩ | ⟨g, -, h⟩⟩ | ⟨c, arguments, g, -, hc, harity, -, hg, h⟩
    · rw [h]
      exact .inl (Nat.le_refl _)
    · rw [h, hm]
      exact .inl (Nat.le_refl _)
    · rw [h]
      rcases Nat.lt_or_ge c.body s.program.tree.size with inside | outside
      · rw [call_of_lt inside]
        exact .inr ⟨c, arguments, hc, harity, ⟨g, hg, rfl⟩, rfl⟩
      · rw [call_of_outside outside, hm]
        exact .inl (Nat.le_refl _)

end Machine

/-- A pass that has frames has entered the root. -/
theorem Pass.Open.started {p : Pass} {before : Engine} {P : NodeId → Value → Prop}
    (o : p.Open before P) {f : Frame} {rest : List Frame} (hm : p.machine.frames = f :: rest) :
    p.machine.started = true := by
  obtain ⟨k, hk, -⟩ := o.machine
  have hinv := (Machine.started_invariant p.setting).run (m := .start before.scopes) (.inr rfl) false k
  rw [← hk] at hinv
  exact hinv.resolve_right (by simp [hm])

/-- Whatever has happened since an engine was at rest, while its program stayed: a call runs the one part of
a function node of the program, with the parameters of that node, unless the engine had kept the function
from another program. -/
theorem Stage.Reached.calls_own_code {e : Engine} {fair : Pass → Prop}
    (h : Reached Tree.Accepted fair (.idle e)) {before : Engine} {p : Pass} {past : List Stage}
    (hs : Stretch Known Known e (.busy before p :: past)) {f : Frame} {rest : List Frame}
    (hm : p.machine.frames = f :: rest) {count : Nat}
    (hcall : f.steps[f.cursor]? = some (.apply (.call count))) :
    p.next.frames.length ≤ p.machine.frames.length ∨
      ∃ c arguments, p.machine.RunsBody p.engine.program.tree f rest c arguments p.next ∧
        (c.Of p.engine.program.tree ∧ c.body < p.engine.program.tree.size ∨
          e.Keeps c ∧ ¬ c.Of e.program.tree) := by
  obtain ⟨_, _, confined⟩ := h.exists_confined
  have he : e.Confined e.program.tree e.Opens
      fun c => (c.Of e.program.tree ∨ e.Keeps c) ∧ e.Opens c.scope :=
    Engine.confined_of_keeps (fun _ => .inr) (confined.tree ▸ confined.reactor.reactions)
  have makes : e.program.tree.Makes e.Opens
      fun c => (c.Of e.program.tree ∨ e.Keeps c) ∧ e.Opens c.scope :=
    fun _ _ _ _ hk hb hscope => ⟨.inl ⟨hk, hb⟩, hscope⟩
  obtain ⟨hengine, hmachine⟩ := hs.confined h.regular he (fun _ _ all hv => hv.every all)
    (fun _ _ all hv => hv.every all) (fun _ hc => hc.2) makes _ List.mem_cons_self
  obtain ⟨⟨t, regular⟩, ⟨o, -⟩ | settled⟩ := hs.regular h.regular _ List.mem_cons_self
  · have htree : p.setting.program.tree = p.engine.program.tree := by rw [o.program]
    refine (Machine.runs_of_call hm hcall (o.started hm) p.engine.abortRequested).imp_right ?_
    rintro ⟨c, arguments, runs⟩
    rw [htree] at runs
    refine ⟨c, arguments, runs, ?_⟩
    have hf : f ∈ p.machine.frames := hm ▸ List.mem_cons_self
    have hc : c.Of e.program.tree ∨ e.Keeps c :=
      (Value.every_function.1 (hmachine.confined.values f hf _ runs.held)).1
    by_cases hof : c.Of e.program.tree
    · have hof : c.Of p.engine.program.tree := hengine.tree ▸ hof
      refine .inl ⟨hof, hof.body_lt ?_⟩
      rw [regular.program]
      exact regular.ordered
    · exact .inr ⟨hc.resolve_left hof, hof⟩
  · left
    rw [Pass.next, Machine.tick_of_ended settled.ended]

/-! ### Calls on the way -/

/-- The frame on top is about to call what it has gathered. -/
def Machine.atCall (m : Machine) : Bool :=
  match m.frames with
  | [] => false
  | f :: _ =>
    match f.steps[f.cursor]? with
    | some (.apply (.call _)) => true
    | _ => false

theorem Machine.exists_of_atCall {m : Machine} (h : m.atCall = true) : ∃ f rest count,
    m.frames = f :: rest ∧ f.steps[f.cursor]? = some (.apply (.call count)) := by
  unfold atCall at h
  split at h
  · cases h
  · rename_i f rest hm
    split at h
    · exact ⟨f, rest, _, hm, ‹_›⟩
    · cases h

/-- A new engine with the keyboard only has no functions at all. -/
theorem Aside.confined_new {t : Tree} {config : Config} {e : Engine}
    (h : Engine.new t Aside.catalog config = .ok e) (q : Closure → Prop) :
    e.Confined t (fun _ => True) q := by
  refine Engine.confined_new h fun name spec hspec => ?_
  obtain ⟨-, rfl⟩ := Prod.mk.inj (List.mem_singleton.1 (Assoc.mem_of_get? hspec))
  exact Value.every_text _

/-! A program that makes a function and calls a global: there is none at first, and then it is that
function. -/

namespace Recall

/-- The body of the function is node 2, and node 7 calls the global. -/
def draft : Draft :=
  ⟨#[⟨.reference "p", [], none, none⟩, ⟨.text "!", [], none, none⟩,
    ⟨.binary [.add], [0, 1], none, none⟩, ⟨.function ["p"], [2], none, none⟩,
    ⟨.bind "f", [3], none, none⟩, ⟨.reference "g", [], none, none⟩,
    ⟨.stream "keyboard", [], none, none⟩, ⟨.call, [5, 6], none, none⟩,
    ⟨.block, [4, 7], none, none⟩]⟩

def tree : Tree := ((draft.finish 8).toOption).getD ⟨#[], 0⟩

/-- The engine before its first pass. -/
def fresh : Engine := .load tree Aside.catalog .default

/-- The end of the first pass. -/
def first : Pass := Nat.iterate Pass.tick 30 (Pass.opened fresh)

/-- What has been committed for the function. -/
def function : Value := (first.abandon.engine.value? 3).getD (.text "")

def defined : Engine := first.abandon.engine.defineGlobal "g" function

/-- The second pass, when it calls the global. -/
def calling : Pass := Nat.iterate Pass.tick 17 (Pass.opened defined)

/-- What can be read off the program and its passes. -/
@[mk_iff]
structure Checked : Prop where
  built : draft.finish 8 = .ok tree
  runs : defined.stopped = false ∧ defined.config.conflictPolicy = .attach
  committed : (first.abandon.engine.value? 3).isSome = true
  atCall : calling.machine.atCall = true
  more : calling.machine.frames.length < calling.next.frames.length

theorem checked : Checked := checked_iff.2 (by decide +kernel)

theorem new_fresh : Engine.new tree Aside.catalog .default = .ok fresh :=
  rfl

theorem reached : Stage.Reached Tree.Accepted (fun _ => True) (.idle fresh) :=
  .new ⟨draft, 8, checked.built⟩ new_fresh

/-- At first there is no function at all. -/
theorem not_keeps (c : Closure) : ¬ fresh.Keeps c :=
  (Aside.confined_new new_fresh fun _ => False).of_keeps

theorem stretch : ∃ past, Stretch Known Known fresh (.busy defined calling :: past) := by
  have opened : Stretch Known Known fresh [.busy fresh (Pass.opened fresh), .idle fresh] :=
    .step .rest (.start (Pass.start_eq_opened rfl rfl))
  have committed : first.abandon.engine.value? 3 = some function := by
    obtain ⟨v, hv⟩ := Option.isSome_iff_exists.1 checked.committed
    rw [function, hv]
    rfl
  have left := (opened.ticks 30).step .leave
  have hdefined := left.step (.defineGlobal "g" (known_of_value List.mem_cons_self committed))
  have again := hdefined.step (.start (Pass.start_eq_opened checked.runs.1 checked.runs.2))
  exact ⟨_, again.ticks 17⟩

end Recall

/-- The function that has become a global is called, and its own body is run. -/
theorem Stage.Reached.global_calls_own_code : ∃ f rest c arguments,
    Recall.calling.machine.frames = f :: rest ∧
      Recall.calling.machine.RunsBody Recall.calling.engine.program.tree f rest c arguments
        Recall.calling.next ∧
      c.Of Recall.calling.engine.program.tree := by
  obtain ⟨f, rest, count, hm, hcall⟩ := Machine.exists_of_atCall Recall.checked.atCall
  obtain ⟨past, hs⟩ := Recall.stretch
  have hcalls := calls_own_code Recall.reached hs hm hcall
  obtain ⟨c, arguments, runs, ⟨hc, -⟩ | ⟨hc, -⟩⟩ :=
    hcalls.resolve_left (Nat.not_le.2 Recall.checked.more)
  · exact ⟨f, rest, c, arguments, hm, runs, hc⟩
  · exact absurd hc (Recall.not_keeps c)

/-! The function of a program that has been replaced. In the new program one node has the number of its
body, and none is a function. -/

namespace Stray

/-- Node 0 is the reference. -/
def caller : Draft :=
  ⟨#[⟨.reference "g", [], none, none⟩, ⟨.stream "keyboard", [], none, none⟩,
    ⟨.call, [0, 1], none, none⟩, ⟨.text "new", [], none, none⟩, ⟨.block, [2, 3], none, none⟩]⟩

def other : Tree := ((caller.finish 4).toOption).getD ⟨#[], 0⟩

/-- The engine when the function is kept and the program has been replaced by this one. -/
def onto (t : Tree) : Engine :=
  (fresh.passed.defineGlobal "g" ((fresh.passed.value? 1).getD (.text ""))).replaceTree t

theorem reached_fresh : Stage.Reached Tree.Accepted (fun _ => True) (.idle fresh) := by
  have hnew : Engine.new old Aside.catalog .default = .ok fresh := rfl
  exact .new ⟨before, 1, checked.built.1⟩ hnew

theorem reached_passed : Stage.Reached Tree.Accepted (fun _ => True) (.idle fresh.passed) :=
  (reached_fresh.passed rfl rfl fun _ => trivial).step .leave

theorem reached_onto {t : Tree} (ht : t.Accepted) :
    Stage.Reached Tree.Accepted (fun _ => True) (.idle (onto t)) :=
  (reached_passed.step (.defineGlobal "g" _)).step (.replaceTree ht)

/-- The pass over the other program, when it calls the global. -/
def calling : Pass := Nat.iterate Pass.tick 10 (Pass.opened (onto other))

/-- What can be read off the passes. -/
@[mk_iff]
structure Called : Prop where
  committed : (fresh.passed.value? 1).isSome = true
  built : caller.finish 4 = .ok other
  runs : (onto other).stopped = false ∧ (onto other).config.conflictPolicy = .attach
  started : calling.machine.started = true
  atCall : calling.machine.atCall = true
  more : calling.machine.frames.length < calling.next.frames.length
  plain : ∀ i ∈ calling.engine.program.tree.ids, calling.engine.program.tree.isFunction i = false

theorem called : Called := called_iff.2 (by decide +kernel)

end Stray

/-- A value that was committed for a node is defined as a global and the program replaced; then a call runs
a node of the present program that is no part of a function. -/
theorem Stage.Reached.exists_call_of_other : ∃ e i v t before p f rest c arguments,
    Reached Tree.Accepted (fun _ => True) (.idle e) ∧ e.value? i = some v ∧ t.Accepted ∧
      Relation.ReflTransGen (Step Tree.Accepted fun _ => True)
        (.idle ((e.defineGlobal "g" v).replaceTree t)) (.busy before p) ∧
      p.machine.frames = f :: rest ∧
      p.machine.RunsBody p.engine.program.tree f rest c arguments p.next ∧
      ¬ c.Of p.engine.program.tree := by
  obtain ⟨v, hv⟩ := Option.isSome_iff_exists.1 Stray.called.committed
  have heq : (Stray.fresh.passed.defineGlobal "g" v).replaceTree Stray.other =
      Stray.onto Stray.other := by
    rw [Stray.onto, hv]
    rfl
  obtain ⟨f, rest, count, hm, hcall⟩ := Machine.exists_of_atCall Stray.called.atCall
  obtain ⟨c, arguments, runs⟩ := (Machine.runs_of_call (s := Stray.calling.setting) hm hcall
    Stray.called.started Stray.calling.engine.abortRequested).resolve_left
      (Nat.not_le.2 Stray.called.more)
  refine ⟨Stray.fresh.passed, 1, v, Stray.other, Stray.onto Stray.other, Stray.calling, f, rest, c,
    arguments, Stray.reached_passed, hv, ⟨_, _, Stray.called.built⟩, ?_, hm, runs, fun hc => ?_⟩
  · rw [heq]
    exact .head (.start (Pass.start_eq_opened Stray.called.runs.1 Stray.called.runs.2))
      (steps_ticks 10 fun _ _ => trivial)
  · have hplain := Stray.called.plain c.function (List.mem_range.2 (Tree.lt_size_of_kind hc.kind))
    rw [Tree.isFunction, hc.kind] at hplain
    cases hplain

/-! The function of a program that has been replaced by a smaller one: its body is node 6, and the new
program has four nodes. -/

namespace Adrift

def before : Draft :=
  ⟨#[⟨.text "a", [], none, none⟩, ⟨.text "b", [], none, none⟩, ⟨.text "c", [], none, none⟩,
    ⟨.text "d", [], none, none⟩, ⟨.text "e", [], none, none⟩, ⟨.text "f", [], none, none⟩,
    ⟨.list, [0, 1, 2, 3, 4, 5], none, none⟩, ⟨.function ["p"], [6], none, none⟩]⟩

def caller : Draft :=
  ⟨#[⟨.reference "g", [], none, none⟩, ⟨.text "x", [], none, none⟩, ⟨.call, [0, 1], none, none⟩]⟩

def large : Tree := ((before.finish 7).toOption).getD ⟨#[], 0⟩

def small : Tree := ((caller.finish 2).toOption).getD ⟨#[], 0⟩

/-- The engine before its first pass. -/
def fresh : Engine := .load large Aside.catalog .default

/-- The engine when the function is kept and the program has been replaced. -/
def replaced : Engine :=
  (fresh.passed.defineGlobal "g" ((fresh.passed.value? 7).getD (.text ""))).replaceTree small

/-- What can be read off the programs and the passes. -/
@[mk_iff]
structure Checked : Prop where
  built : before.finish 7 = .ok large ∧ caller.finish 2 = .ok small
  committed : (fresh.passed.value? 7).isSome = true
  runs : replaced.stopped = false ∧ replaced.config.conflictPolicy = .attach
  crashed : (Machine.unlimited (Pass.opened replaced).setting replaced.scopes 20).fault? =
    some (.outside 6 4)

theorem checked : Checked := checked_iff.2 (by decide +kernel)

theorem reached : Stage.Reached Tree.Accepted (fun _ => True) (.idle fresh.passed) := by
  have hnew : Engine.new large Aside.catalog .default = .ok fresh := rfl
  exact ((Stage.Reached.new ⟨before, 7, checked.built.1⟩ hnew).passed rfl rfl fun _ => trivial).step
    .leave

/-- No budget of twenty steps or more is spent. -/
theorem broken (budget : Nat) (hb : 20 ≤ budget) : ((Machine.start replaced.scopes).finish
    { (Pass.opened replaced).setting with budget } false).status = .broken (.outside 6 4) := by
  have crashed := Machine.status_of_fault? checked.crashed
  have past : (Machine.unlimited (Pass.opened replaced).setting replaced.scopes 20).isRunning =
      false := by
    rw [Machine.isRunning, crashed]
  rw [Machine.finish_of_over past hb, crashed]

end Adrift

/-- A value that was committed for a node is defined as a global and the program replaced; then the next
pass reaches no terminal, for any budget from some number on, and no number of steps suffices for a
value. -/
theorem Stage.Reached.exists_crash : ∃ e i v t e' p,
    Reached Tree.Accepted (fun _ => True) (.idle e) ∧ e.value? i = some v ∧ t.Accepted ∧
      e' = (e.defineGlobal "g" v).replaceTree t ∧ Pass.start e' = .ok p ∧
      (∃ enough, ∀ budget, enough ≤ budget → ∀ T,
        ((Machine.start e'.scopes).finish { p.setting with budget } false).status ≠ .ended T) ∧
      ¬ ∃ needed outcome, Machine.Needs p.setting e'.scopes needed outcome := by
  obtain ⟨v, hv⟩ := Option.isSome_iff_exists.1 Adrift.checked.committed
  have heq : Adrift.replaced = (Adrift.fresh.passed.defineGlobal "g" v).replaceTree Adrift.small := by
    rw [Adrift.replaced, hv]
    rfl
  refine ⟨Adrift.fresh.passed, 7, v, Adrift.small, Adrift.replaced, Pass.opened Adrift.replaced,
    Adrift.reached, hv, ⟨_, _, Adrift.checked.built.2⟩, heq,
    Pass.start_eq_opened Adrift.checked.runs.1 Adrift.checked.runs.2,
    ⟨20, fun budget hb T hT => ?_⟩, ?_⟩
  · rw [Adrift.broken budget hb] at hT
    cases hT
  · rintro ⟨needed, outcome, h⟩
    obtain ⟨v, hv⟩ := h.status
    rw [← h.enough (max needed 20) (Nat.le_max_left ..),
      Adrift.broken _ (Nat.le_max_right ..)] at hv
    cases hv

end StreamLang
