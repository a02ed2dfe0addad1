import StreamLang.Proofs.Machine.Deeds
import StreamLang.Proofs.Machine.Functions
import StreamLang.Proofs.Machine.Preserved
import StreamLang.Proofs.Tree.Plain
/-!
What a reference finds when it runs. While a machine runs, every frame on its stack has its place among
the scopes, the frame of a block has bound what comes before the statement it is at, and every function
has kept a scope that fits its place in the tree. Main statement: a name gives what the analysis says,
but of the innermost run of the block that it names it gives the last value that the name got there.
-/
namespace StreamLang

/-- The child that the frame has evaluated last, right before its present step. -/
def Frame.evaluated? (t : Tree) (f : Frame) : Option NodeId :=
  match f.steps[f.cursor - 1]? with
  | some (.evaluate k) => (t.children f.node)[k]?
  | _ => none

namespace Machine

/-- What a step of the frame `f` does about names. -/
def deedOf? (s : Setting) (m : Machine) (f : Frame) : Step → Option Deed
  | .enterScope => some (.opens m.scopes.all.size f.scope (.block f.node))
  | .define _ =>
    match f.evaluated? s.program.tree, f.values with
    | some i, v :: _ => some (.binds f.scope i v)
    | _, _ => none
  | .apply (.call count) =>
    match f.values.drop count with
    | target :: _ =>
      match callee f.node target (f.lastValues count).length with
      | .body c =>
        if m.scopes.all.size ≤ c.scope then none
        else some (.opens m.scopes.all.size c.scope (.call c (f.lastValues count)))
      | .value _ => none
    | [] => none
  | _ => none

/-- What the next tick does about names, if it is not asked to abort. -/
def deed? (s : Setting) (m : Machine) : Option Deed :=
  if !m.isRunning then none
  else if !m.started then some (.opens m.scopes.all.size s.globals .program)
  else if s.budget ≤ m.record.steps then none
  else match m.frames with
    | [] => none
    | f :: _ => (f.steps[f.cursor]?).bind (m.deedOf? s f)

/-- What `n` ticks do about names. -/
def deeds (s : Setting) (m : Machine) : Nat → Deeds
  | 0 => []
  | n + 1 => ((m.run s false n).deed? s).toList ++ m.deeds s n

end Machine

/-- The function was made by its node, in a scope that fits the place of the node. -/
structure Closure.Made (t : Tree) (D : Deeds) (c : Closure) : Prop where
  kind : t.kind? c.function = some (.function c.parameters)
  body : c.body ∈ t.children c.function
  placed : t.Placed D true c.function c.scope

theorem Closure.Made.cons {t : Tree} {D : Deeds} {globals : ScopeId} {scopes : Scopes} {c : Closure}
    (h : c.Made t D) (T : D.Tell t globals scopes) (d : Deed) : c.Made t (d :: D) :=
  ⟨h.kind, h.body, h.placed.cons T d (by simp)⟩

namespace Frame

/-- The frame of a block is past the statements `pre`; of the next one it may have the value. -/
inductive Past (t : Tree) (f : Frame) : List NodeId → Prop where
  | next {pre rest} (split : t.children f.node = pre ++ rest)
    (ahead : f.steps.drop f.cursor = t.statementSteps pre.length rest) : Past t f pre
  | valued {pre c rest} (split : t.children f.node = pre ++ c :: rest)
    (last : f.steps[f.cursor - 1]? = some (.evaluate pre.length))
    (ahead : f.steps.drop f.cursor = Machine.boundSteps t c ++
      ((if rest.isEmpty then [] else [.discard]) ++ t.statementSteps (pre.length + 1) rest)) :
    Past t f pre
  | bound {pre c rest} (split : t.children f.node = pre ++ c :: rest)
    (ahead : f.steps.drop f.cursor =
      (if rest.isEmpty then [] else [.discard]) ++ t.statementSteps (pre.length + 1) rest) :
    Past t f (pre ++ [c])

/-- What a frame of a block does next. -/
theorem Past.cases {t : Tree} {f : Frame} {pre : List NodeId} {a : Step} (h : f.Past t pre)
    (ha : f.steps[f.cursor]? = some a) :
    (∃ c rest, t.children f.node = pre ++ c :: rest ∧ a = .evaluate pre.length ∧
      ∀ g : Frame, g.node = f.node → g.steps = f.steps → g.cursor = f.cursor + 1 → g.Past t pre) ∨
    (∃ c rest name, t.children f.node = pre ++ c :: rest ∧ t.kind? c = some (.bind name) ∧
      a = .define name ∧ f.evaluated? t = some c ∧
      ∀ g : Frame, g.node = f.node → g.steps = f.steps → g.cursor = f.cursor + 1 →
        g.Past t (pre ++ [c])) ∨
    (∃ pre', a = .discard ∧
      pre'.filter (t.kindIs NodeKind.isBind) = pre.filter (t.kindIs NodeKind.isBind) ∧
      ∀ g : Frame, g.node = f.node → g.steps = f.steps → g.cursor = f.cursor + 1 →
        g.Past t pre') ∨
    a = .finish := by
  have hhead : (f.steps.drop f.cursor).head? = some a := by rw [List.head?_drop, ha]
  have hdrop {b : Step} {l : List Step} (h : f.steps.drop f.cursor = b :: l) :
      a = b ∧ f.steps.drop (f.cursor + 1) = l := by
    rw [h] at hhead
    refine ⟨(Option.some.inj hhead).symm, ?_⟩
    rw [← List.drop_drop, h]
    rfl
  -- after the value of a statement has gone by its name
  have settled {pre : List NodeId} {c : NodeId} {rest : List NodeId}
      (split : t.children f.node = pre ++ c :: rest)
      (ahead : f.steps.drop f.cursor =
        (if rest.isEmpty then [] else [.discard]) ++ t.statementSteps (pre.length + 1) rest) :
      (a = .discard ∧ ∀ g : Frame, g.node = f.node → g.steps = f.steps →
        g.cursor = f.cursor + 1 → g.Past t (pre ++ [c])) ∨ a = .finish := by
    cases rest with
    | nil => exact .inr (hdrop ahead).1
    | cons d rest =>
      obtain ⟨rfl, hnext⟩ := hdrop ahead
      refine .inl ⟨rfl, fun g hn hs hc =>
        .next (show t.children g.node = (pre ++ [c]) ++ d :: rest from ?_) ?_⟩
      · rw [hn, split, List.append_assoc]
        rfl
      · rw [hs, hc, hnext, List.length_append]
        rfl
  cases h with
  | @next pre rest split ahead =>
    cases rest with
    | nil => exact .inr (.inr (.inr (hdrop ahead).1))
    | cons c rest =>
      rw [Machine.statementSteps_cons] at ahead
      obtain ⟨rfl, hnext⟩ := hdrop ahead
      refine .inl ⟨c, rest, split, rfl, fun g hn hs hc => .valued (hn ▸ split) ?_ ?_⟩
      · rw [hs, hc]
        exact ha
      · rw [hs, hc, hnext]
  | @valued pre c rest split last ahead =>
    by_cases hb : ∃ name, t.kind? c = some (.bind name)
    · obtain ⟨name, hk⟩ := hb
      rw [show Machine.boundSteps t c = [.define name] by simp [Machine.boundSteps, hk]] at ahead
      obtain ⟨rfl, hnext⟩ := hdrop ahead
      refine .inr (.inl ⟨c, rest, name, split, hk, rfl, ?_, fun g hn hs hc => .bound (hn ▸ split) ?_⟩)
      · simp [evaluated?, last, split]
      · rw [hs, hc]
        exact hnext
    · have hnone : Machine.boundSteps t c = [] := by
        unfold Machine.boundSteps
        split
        · exact absurd ⟨_, ‹_›⟩ hb
        · rfl
      have hbind : t.kindIs NodeKind.isBind c = false := by
        cases hk : t.kind? c with
        | none => simp [Tree.kindIs, hk]
        | some k => cases k <;> simp_all [Tree.kindIs, NodeKind.isBind]
      rw [hnone] at ahead
      rcases settled split ahead with ⟨rfl, hg⟩ | rfl
      · exact .inr (.inr (.inl ⟨pre ++ [c], rfl, by simp [hbind], hg⟩))
      · exact .inr (.inr (.inr rfl))
  | @bound pre c rest split ahead =>
    rcases settled split ahead with ⟨rfl, hg⟩ | rfl
    · exact .inr (.inr (.inl ⟨pre ++ [c], rfl, rfl, hg⟩))
    · exact .inr (.inr (.inr rfl))

theorem Past.of_eq {t : Tree} {f g : Frame} {pre : List NodeId} (h : f.Past t pre)
    (node : g.node = f.node) (steps : g.steps = f.steps) (cursor : g.cursor = f.cursor) :
    g.Past t pre := by
  cases h with
  | next split ahead => exact .next (node ▸ split) (by rw [steps, cursor]; exact ahead)
  | valued split last ahead =>
    exact .valued (node ▸ split) (by rw [steps, cursor]; exact last)
      (by rw [steps, cursor]; exact ahead)
  | bound split ahead => exact .bound (node ▸ split) (by rw [steps, cursor]; exact ahead)

/-- The frame has its place. That of a block opens a scope first, and from then on has in it the binds
among the statements that it is past. -/
inductive Located (t : Tree) (D : Deeds) (f : Frame) : Prop where
  | begun (out : f.cursor = 0 ∨ f.steps.head? ≠ some .enterScope)
    (placed : t.Placed D false f.node f.scope)
  | inside {o pre} (opened : .opens f.scope o (.block f.node) ∈ D)
    (kind : t.kind? f.node = some .block) (placed : t.Placed D false f.node o) (past : f.Past t pre)
    (bound : (D.bound f.scope).map (·.1) = (pre.filter (t.kindIs NodeKind.isBind)).reverse)

/-- A frame stands in the scope of the one below or in a later one; that of a block in one of its
own, as soon as it has opened it. -/
def Above (f g : Frame) : Prop :=
  g.scope ≤ f.scope ∧ (f.steps.head? = some .enterScope → f.cursor ≠ 0 → g.scope < f.scope)

theorem Above.of_eq {f f' g : Frame} (h : f.Above g) (steps : f'.steps = f.steps)
    (cursor : f'.cursor = f.cursor) (scope : f'.scope = f.scope) : f'.Above g := by
  rw [Above, steps, cursor, scope]
  exact h

theorem Located.of_eq {t : Tree} {D : Deeds} {f g : Frame} (h : f.Located t D)
    (node : g.node = f.node) (steps : g.steps = f.steps) (cursor : g.cursor = f.cursor)
    (scope : g.scope = f.scope) : g.Located t D := by
  cases h with
  | begun out placed =>
    exact .begun (by rw [steps, cursor]; exact out) (by rw [node, scope]; exact placed)
  | inside opened kind placed past bound =>
    exact .inside (by rw [node, scope]; exact opened) (node ▸ kind) (node ▸ placed)
      (past.of_eq node steps cursor) (scope ▸ bound)

/-- Another deed takes no place away, if it is not that of a bind in one of the scopes. -/
theorem Located.cons {t : Tree} {D : Deeds} {globals : ScopeId} {scopes : Scopes} {f : Frame}
    (h : f.Located t D) (T : D.Tell t globals scopes) (d : Deed)
    (hd : ∀ y ≤ f.scope, Deeds.bound (d :: D) y = D.bound y) : f.Located t (d :: D) := by
  cases h with
  | begun out placed => exact .begun out (placed.cons T d fun _ => hd)
  | inside opened kind placed past bound =>
    refine .inside (List.mem_cons_of_mem _ opened) kind (placed.cons T d fun _ y hy => hd y ?_) past
      (by rw [hd _ (Nat.le_refl _)]; exact bound)
    exact Nat.le_trans hy (Nat.le_of_lt (T.outside_lt opened))

theorem Located.scope_lt {t : Tree} {D : Deeds} {globals : ScopeId} {scopes : Scopes} {f : Frame}
    (h : f.Located t D) (T : D.Tell t globals scopes) : f.scope < scopes.all.size := by
  cases h with
  | begun _ placed => exact placed.lt_size T
  | inside opened => exact T.lt_size opened

end Frame

/-- Frames that each have their place and stand above the others. -/
structure Stacked (t : Tree) (D : Deeds) (frames : List Frame) : Prop where
  steps : ∀ f ∈ frames, f.steps = t.steps f.node
  located : ∀ f ∈ frames, f.Located t D
  above : frames.Pairwise Frame.Above

namespace Stacked

variable {t : Tree} {D : Deeds} {globals : ScopeId} {scopes : Scopes} {f g : Frame}
  {rest : List Frame}

theorem nil : Stacked t D [] := ⟨by simp, by simp, .nil⟩

theorem tail (h : Stacked t D (f :: rest)) : Stacked t D rest :=
  ⟨fun g hg => h.steps g (List.mem_cons_of_mem _ hg),
    fun g hg => h.located g (List.mem_cons_of_mem _ hg), h.above.of_cons⟩

theorem push (h : Stacked t D rest) (steps : f.steps = t.steps f.node) (located : f.Located t D)
    (above : ∀ g ∈ rest, f.Above g) : Stacked t D (f :: rest) :=
  ⟨List.forall_mem_cons.2 ⟨steps, h.steps⟩, List.forall_mem_cons.2 ⟨located, h.located⟩,
    List.pairwise_cons.2 ⟨above, h.above⟩⟩

theorem replace (h : Stacked t D (f :: rest)) (node : g.node = f.node) (steps : g.steps = f.steps)
    (cursor : g.cursor = f.cursor) (scope : g.scope = f.scope) : Stacked t D (g :: rest) :=
  h.tail.push (by rw [steps, node]; exact h.steps f List.mem_cons_self)
    ((h.located f List.mem_cons_self).of_eq node steps cursor scope)
    fun k hk => ((List.pairwise_cons.1 h.above).1 k hk).of_eq steps cursor scope

theorem cons (h : Stacked t D rest) (T : D.Tell t globals scopes) (d : Deed)
    (hd : ∀ f ∈ rest, ∀ y ≤ f.scope, Deeds.bound (d :: D) y = D.bound y) :
    Stacked t (d :: D) rest :=
  ⟨h.steps, fun f hf => (h.located f hf).cons T d (hd f hf), h.above⟩

/-- A scope more has nothing bound in it. -/
theorem opens (h : Stacked t D rest) (T : D.Tell t globals scopes) (x o : ScopeId) (u : Purpose) :
    Stacked t (.opens x o u :: D) rest := h.cons T _ fun _ _ _ _ => rfl

/-- What a frame calls stands above it. -/
theorem start (h : Stacked t D rest) {i : NodeId} {x : ScopeId} (placed : t.Placed D false i x)
    (hx : ∀ g ∈ rest, g.scope ≤ x) : Stacked t D (.start i (t.steps i) x :: rest) :=
  h.push rfl (.begun (.inl rfl) placed) fun g hg => ⟨hx g hg, fun _ h => absurd rfl h⟩

theorem scope_le (h : Stacked t D (f :: rest)) : ∀ g ∈ f :: rest, g.scope ≤ f.scope := by
  intro g hg
  rcases List.mem_cons.1 hg with rfl | hg
  · exact Nat.le_refl _
  · exact ((List.pairwise_cons.1 h.above).1 g hg).1

theorem scope_lt (h : Stacked t D rest) (T : D.Tell t globals scopes) :
    ∀ g ∈ rest, g.scope < scopes.all.size := fun g hg => (h.located g hg).scope_lt T

end Stacked

namespace Tree

variable {t : Tree} {i : NodeId}

/-- A block that is not blocked opens a scope first. -/
theorem steps_of_block (hk : t.kind? i = some .block) :
    t.steps i = .enterScope :: t.statementSteps 0 (t.children i) ∨
      ∃ kind message, t.steps i = failSteps kind message := by
  rcases fault_or_working (lt_size_iff.1 (lt_size_of_kind hk)) with ⟨kind, message, hf⟩ | ⟨n, hw⟩
  · exact .inr ⟨kind, message, steps_of_fault hf⟩
  · refine .inl ?_
    rw [hw.steps, hw.children, Option.some.inj (hw.kind.symm.trans hk)]
    rfl

theorem steps_of_block_step {a : Step} (hk : t.kind? i = some .block) (ha : a ∈ t.steps i)
    (hne : ∀ kind message, a ∉ failSteps kind message) :
    t.steps i = .enterScope :: t.statementSteps 0 (t.children i) := by
  rcases steps_of_block hk with h | ⟨kind, message, h⟩
  · exact h
  · exact absurd (h ▸ ha) (hne kind message)

end Tree

namespace Machine

/-- What was done tells what is in the scopes, where the frames are and where functions come from. -/
structure Traced (s : Setting) (D : Deeds) (m : Machine) : Prop where
  tell : D.Tell s.program.tree s.globals m.scopes
  globals : s.globals < m.scopes.all.size
  setting : s.Holds (Closure.Made s.program.tree D)
  functions : m.Holds (Closure.Made s.program.tree D)
  stacked : Stacked s.program.tree D m.frames

variable {s : Setting} {D : Deeds} {m m' : Machine} {f : Frame} {rest : List Frame} {a : Step}

theorem scopes_handDown (m : Machine) (version : Option Nat) (v : Value) :
    (m.handDown version v).scopes = m.scopes := by
  unfold handDown
  split <;> rfl

theorem scopes_enter (m : Machine) (i : NodeId) (x : ScopeId) :
    (m.enter s i x).scopes = m.scopes := by
  unfold enter
  split
  · exact scopes_handDown _ _ _
  · exact scopes_call m i x

theorem stacked_handDown {t : Tree} (h : Stacked t D m.frames) (version : Option Nat) (v : Value) :
    Stacked t D (m.handDown version v).frames := by
  unfold handDown
  split
  · exact h
  · rename_i f rest hm
    rw [hm] at h
    exact h.replace rfl rfl rfl rfl

theorem stacked_call (h : Stacked s.program.tree D m.frames) {i : NodeId} {x : ScopeId}
    (placed : s.program.tree.Placed D false i x) (hx : ∀ g ∈ m.frames, g.scope ≤ x) :
    Stacked s.program.tree D (m.call s i x).frames :=
  call_induction (I := fun m' => Stacked s.program.tree D m'.frames) (fun _ => h) fun _ =>
    h.start placed hx

theorem stacked_enter (h : Stacked s.program.tree D m.frames) {i : NodeId} {x : ScopeId}
    (placed : s.program.tree.Placed D false i x) (hx : ∀ g ∈ m.frames, g.scope ≤ x) :
    Stacked s.program.tree D (m.enter s i x).frames := by
  unfold enter
  split
  · exact stacked_handDown (m := m.setRecord (s.noteReuse m.record i)) h _ _
  · exact stacked_call h placed hx

/-- A call runs the body of a function that was among the values of the frame, with as many arguments
as the function has parameters, or it does nothing about names. -/
theorem applyCall_cases (s : Setting) (m : Machine) (f : Frame) (rest : List Frame) (count : Nat) :
    let m' := m.apply s { f with cursor := f.cursor + 1 } rest (.call count)
    (m.deedOf? s f (.apply (.call count)) = none ∧
      ((∃ fault, m' = m.fail fault) ∨ ∃ g, f.Resumes g ∧ m' = m.put g rest)) ∨
    ∃ c arguments g, m.deedOf? s f (.apply (.call count)) =
        some (.opens m.scopes.all.size c.scope (.call c arguments)) ∧
      .function c ∈ f.values ∧ c.parameters.length = arguments.length ∧
      c.scope < m.scopes.all.size ∧ f.Resumes g ∧
      m' = (((m.put g rest).openScope c.scope).2.define m.scopes.all.size
        (c.parameters.zip arguments)).call s c.body m.scopes.all.size := by
  intro m'
  by_cases hlt : f.values.length < count
  · refine .inl ⟨?_, .inl ⟨_, if_pos hlt⟩⟩
    simp only [deedOf?, List.drop_of_length_le (Nat.le_of_lt hlt)]
  cases hv : f.values.drop count with
  | nil =>
    refine .inl ⟨by simp only [deedOf?, hv], .inl ⟨.noValue f.node, ?_⟩⟩
    simp only [m', apply, if_neg hlt, hv]
  | cons target values =>
    have hm' : m' = m.applyCallee s { f with cursor := f.cursor + 1, values } rest target
        (f.lastValues count) := by
      simp only [m', apply, if_neg hlt, hv]
      rfl
    rw [hm', applyCallee]
    cases hc : callee f.node target (f.lastValues count).length with
    | value v =>
      exact .inl ⟨by simp only [deedOf?, hv, hc],
        .inr ⟨{ f with cursor := f.cursor + 1, values := v :: values }, ⟨rfl, rfl, rfl⟩, rfl⟩⟩
    | body c =>
      obtain ⟨rfl, harity⟩ := callee_eq_body hc
      by_cases hlive : m.scopes.all.size ≤ c.scope
      · exact .inl ⟨by simp only [deedOf?, hv, hc, if_pos hlive], .inl ⟨_, if_pos hlive⟩⟩
      · refine .inr ⟨c, f.lastValues count, { f with cursor := f.cursor + 1, values },
          by simp only [deedOf?, hv, hc, if_neg hlive], ?_, harity, Nat.lt_of_not_le hlive,
          ⟨rfl, rfl, rfl⟩, if_neg hlive⟩
        exact List.mem_of_mem_drop (hv ▸ List.mem_cons_self)

namespace Traced

/-- Steps that do nothing about names. -/
theorem keep (h : m.Traced s D) (scopes : m'.scopes = m.scopes)
    (functions : m'.Holds (Closure.Made s.program.tree D))
    (stacked : Stacked s.program.tree D m'.frames) : m'.Traced s D :=
  ⟨scopes ▸ h.tell, scopes ▸ h.globals, h.setting, functions, stacked⟩

/-- What the step of a frame that is no block's, or is one that has not opened its scope, keeps. -/
theorem begun_of_resumes {t : Tree} {g : Frame} (out : f.cursor = 0 ∨ f.steps.head? ≠ some .enterScope)
    (placed : t.Placed D false f.node f.scope) (ha : f.steps[f.cursor]? = some a)
    (hne : a ≠ .enterScope) (hg : f.Resumes g) : g.Located t D := by
  refine .begun (.inr ?_) (by rw [hg.node, hg.scope]; exact placed)
  rw [hg.steps]
  rcases out with h0 | h
  · rw [h0, ← List.head?_eq_getElem?] at ha
    rw [ha]
    exact fun h => hne (Option.some.inj h)
  · exact h

section Execute

variable (h : m.Traced s D) (hm : m.frames = f :: rest)
  (ha : f.steps[f.cursor]? = some a)
include h hm

theorem stacked_top : Stacked s.program.tree D (f :: rest) := hm ▸ h.stacked

/-- Another frame for the same node in the same scope. -/
theorem stacked_resumes {g : Frame} (hg : f.Resumes g) (located : g.Located s.program.tree D)
    (inside : g.steps.head? = some .enterScope → g.cursor ≠ 0 → f.cursor ≠ 0) :
    Stacked s.program.tree D (g :: rest) := by
  have top := h.stacked_top hm
  refine top.tail.push ?_ located fun k hk => ?_
  · rw [hg.steps, hg.node]
    exact top.steps f List.mem_cons_self
  · have := (List.pairwise_cons.1 top.above).1 k hk
    rw [Frame.Above, hg.scope]
    exact ⟨this.1, fun hs hc => this.2 (hg.steps ▸ hs) (inside hs hc)⟩

include ha

/-- The steps of a frame other than those of a block's. -/
theorem stacked_begun {g : Frame} (out : f.cursor = 0 ∨ f.steps.head? ≠ some .enterScope)
    (placed : s.program.tree.Placed D false f.node f.scope) (hne : a ≠ .enterScope)
    (hg : f.Resumes g) : Stacked s.program.tree D (g :: rest) := by
  have located := begun_of_resumes out placed ha hne hg
  refine h.stacked_resumes hm hg located fun hs _ => ?_
  rw [hg.steps] at hs
  rintro h0
  rw [h0, ← List.head?_eq_getElem?, hs] at ha
  exact hne (Option.some.inj ha).symm

/-- What the functions are like after a step, as far as the step makes one. -/
theorem functions_execute {D' : Deeds} (hD : ∀ c, Closure.Made s.program.tree D c →
      Closure.Made s.program.tree D' c)
    (place : s.program.tree.isFunction f.node = true →
      s.program.tree.Placed D' true f.node f.scope) :
    (m.execute s { f with cursor := f.cursor + 1 } rest a).Holds
      (Closure.Made s.program.tree D') := by
  have hmem : a ∈ s.program.tree.steps f.node :=
    (h.stacked_top hm).steps f List.mem_cons_self ▸ List.mem_of_getElem? ha
  have meets := Tree.meets_of_mem_steps a hmem
  refine (h.functions.mono hD).execute (h.setting.mono hD) hm meets ?_
  rintro function body parameters rfl
  obtain ⟨rfl, hk, hb⟩ := meets
  exact ⟨hk, hb, place (by simp [Tree.isFunction, hk])⟩

/-- A step that only goes on, reads a stream or is the last one. -/
theorem execute_plain (out : f.cursor = 0 ∨ f.steps.head? ≠ some .enterScope)
    (placed : s.program.tree.Placed D false f.node f.scope) (hopen : a ≠ .enterScope)
    (heval : ∀ k, a ≠ .evaluate k) (hdefine : ∀ name, a ≠ .define name)
    (hcall : ∀ count, a ≠ .apply (.call count)) :
    (m.execute s { f with cursor := f.cursor + 1 } rest a).Traced s D := by
  have functions := h.functions_execute hm ha (fun _ hc => hc) fun _ => placed.afar
  have resumes : f.Resumes { f with cursor := f.cursor + 1 } := ⟨rfl, rfl, rfl⟩
  have moved : Moved s m f rest a (m.execute s { f with cursor := f.cursor + 1 } rest a) :=
    moved_execute resumes a
  generalize m.execute s { f with cursor := f.cursor + 1 } rest a = m' at functions moved
  cases moved with
  | failed fault => exact h.keep rfl functions h.stacked
  | resumed hne hg => exact h.keep rfl functions (h.stacked_begun hm ha out placed hne hg)
  | read hg => exact h.keep rfl functions (h.stacked_begun hm ha out placed hopen hg)
  | finished hg =>
    exact h.keep (scopes_handDown _ _ _) functions
      (stacked_handDown (m := { m with frames := rest, record := _ }) (h.stacked_top hm).tail _ _)
  | defined => exact absurd rfl (hdefine _)
  | opened => exact absurd rfl hopen
  | entered => exact absurd rfl (heval _)
  | called => exact absurd rfl (hcall _)

/-- A block opens its scope. -/
theorem execute_enterScope (placed : s.program.tree.Placed D false f.node f.scope)
    (hk : s.program.tree.kind? f.node = some .block) (h0 : f.cursor = 0)
    (hsteps : f.steps =
      .enterScope :: s.program.tree.statementSteps 0 (s.program.tree.children f.node))
    (hopen : a = .enterScope) :
    (m.execute s { f with cursor := f.cursor + 1 } rest a).Traced s
      (.opens m.scopes.all.size f.scope (.block f.node) :: D) := by
  have T := h.tell
  have top := h.stacked_top hm
  have hx : f.scope < m.scopes.all.size := placed.lt_size T
  let d : Deed := .opens m.scopes.all.size f.scope (.block f.node)
  have made (c : Closure) (hc : c.Made s.program.tree D) : c.Made s.program.tree (d :: D) :=
    hc.cons T d
  have functions := h.functions_execute hm ha made fun _ => placed.afar.cons T d (by simp)
  have hbound : D.bound m.scopes.all.size = [] := T.bound_size
  subst hopen
  refine ⟨T.opens_empty hx (fun name => ?_) (by simp), ?_, h.setting.mono made, functions, ?_⟩
  · simp [Purpose.has, Deeds.last?, hbound]
  · exact Nat.lt_of_lt_of_eq (Nat.lt_succ_of_lt h.globals) (Scopes.size_addChild ..).symm
  · refine (top.tail.opens T _ _ _).push (top.steps f List.mem_cons_self) ?_ fun g hg => ?_
    · have all : s.program.tree.children f.node = [] ++ s.program.tree.children f.node := rfl
      refine .inside List.mem_cons_self hk (placed.cons T d fun _ _ _ => rfl) (.next all ?_) ?_
      · simp [hsteps, h0]
      · simpa [d] using hbound
    · have := top.tail.scope_lt T g hg
      exact ⟨Nat.le_of_lt this, fun _ _ => this⟩

/-- A function is called. -/
theorem execute_call (out : f.cursor = 0 ∨ f.steps.head? ≠ some .enterScope)
    (placed : s.program.tree.Placed D false f.node f.scope) {count : Nat}
    (hcall : a = .apply (.call count)) :
    (m.execute s { f with cursor := f.cursor + 1 } rest a).Traced s
      ((m.deedOf? s f a).toList ++ D) := by
  have T := h.tell
  have top := h.stacked_top hm
  subst hcall
  rcases applyCall_cases s m f rest count with ⟨hd, hm'⟩ | ⟨c, arguments, g, hd, hc, harity, hlive, hg, hm'⟩
  · have functions := h.functions_execute hm ha (fun _ hc => hc) fun _ => placed.afar
    rw [hd]
    rcases hm' with ⟨fault, hm'⟩ | ⟨g, hg, hm'⟩
    · refine h.keep ?_ functions ?_ <;> rw [execute, hm']
      · rfl
      · exact h.stacked
    · refine h.keep ?_ functions ?_ <;> rw [execute, hm']
      · rfl
      · exact h.stacked_begun hm ha out placed (by simp) hg
  · have hmade : c.Made s.program.tree D :=
      Value.every_function.1 (h.functions.values f (hm ▸ List.mem_cons_self) _ hc)
    let d : Deed := .opens m.scopes.all.size c.scope (.call c arguments)
    have made (c : Closure) (hc : c.Made s.program.tree D) : c.Made s.program.tree (d :: D) :=
      hc.cons T d
    have functions := h.functions_execute hm ha made fun _ => placed.afar.cons T d (by simp)
    have hsize : (m.scopes.addChild c.scope).2.all.size = m.scopes.all.size + 1 :=
      Scopes.size_addChild ..
    have hlt : m.scopes.all.size < (m.scopes.addChild c.scope).2.all.size := by omega
    have tell : Deeds.Tell (d :: D) s.program.tree s.globals
        ((m.scopes.addChild c.scope).2.defineAll m.scopes.all.size (c.parameters.zip arguments)) := by
      refine T.opens (Scopes.nested_defineAll (Scopes.nested_addChild T.nested hlive) _ _)
        ((Scopes.size_defineAll ..).trans hsize)
        (fun i => (Scopes.outside?_defineAll ..).trans (Scopes.outside?_addChild ..))
        (fun i name => ?_) (by simp)
      rw [Scopes.own?_defineAll hlt, Scopes.own?_addChild]
      by_cases hi : i = m.scopes.all.size
      · simp [hi, Scopes.own?_of_le, Purpose.has]
      · simp [hi]
    have stacked : Stacked s.program.tree (d :: D) (g :: rest) :=
      (h.stacked_begun hm ha out placed (by simp) hg).opens T _ _ _
    rw [hd]
    simp only [execute, hm'] at functions ⊢
    have hscopes : ((((m.put g rest).openScope c.scope).2.define m.scopes.all.size
        (c.parameters.zip arguments)).call s c.body m.scopes.all.size).scopes =
        (m.scopes.addChild c.scope).2.defineAll m.scopes.all.size (c.parameters.zip arguments) :=
      scopes_call _ _ _
    refine ⟨hscopes ▸ tell, ?_, h.setting.mono made, functions, ?_⟩
    · rw [hscopes]
      exact Nat.lt_of_lt_of_eq (Nat.lt_succ_of_lt h.globals)
        ((Scopes.size_defineAll ..).trans hsize).symm
    · refine stacked_call (m := ((m.put g rest).openScope c.scope).2.define m.scopes.all.size
        (c.parameters.zip arguments)) stacked (.body List.mem_cons_self hmade.kind hmade.body harity
        (hmade.placed.cons T d (by simp))) fun k hk => ?_
      have hle := stacked.scope_le k hk
      rw [hg.scope] at hle
      exact Nat.le_of_lt (Nat.lt_of_le_of_lt hle (placed.lt_size T))


/-- A step of a frame that is no block's, or has not opened its scope yet. -/
theorem execute_begun (out : f.cursor = 0 ∨ f.steps.head? ≠ some .enterScope)
    (placed : s.program.tree.Placed D false f.node f.scope) :
    (m.execute s { f with cursor := f.cursor + 1 } rest a).Traced s
      ((m.deedOf? s f a).toList ++ D) := by
  have top := h.stacked_top hm
  have hsteps := top.steps f List.mem_cons_self
  have hmem : a ∈ s.program.tree.steps f.node := hsteps ▸ List.mem_of_getElem? ha
  have meets := Tree.meets_of_mem_steps a hmem
  -- a block that has not opened its scope is about to
  have opening (hk : s.program.tree.kind? f.node = some .block)
      (hne : ∀ kind message, a ∉ Tree.failSteps kind message) : a = .enterScope ∧ f.cursor = 0 ∧
        f.steps = .enterScope :: s.program.tree.statementSteps 0 (s.program.tree.children f.node) := by
    have hblock := Tree.steps_of_block_step hk hmem hne
    rw [← hsteps] at hblock
    have h0 : f.cursor = 0 := out.resolve_right fun h => h (by rw [hblock]; rfl)
    rw [h0, hblock] at ha
    exact ⟨(Option.some.inj ha).symm, h0, hblock⟩
  cases a with
  | enterScope =>
    obtain ⟨-, h0, hblock⟩ := opening meets (by simp [Tree.failSteps])
    exact h.execute_enterScope hm ha placed meets h0 hblock rfl
  | define name => cases (opening meets (by simp [Tree.failSteps])).1
  | discard => cases (opening meets (by simp [Tree.failSteps])).1
  | evaluate k =>
    have functions := h.functions_execute hm ha (fun _ hc => hc) fun _ => placed.afar
    have hb : s.program.tree.kind? f.node ≠ some .block := fun hk => by
      cases (opening hk (by simp [Tree.failSteps])).1
    have stacked := h.stacked_begun hm ha (g := { f with cursor := f.cursor + 1 }) out placed
      (by simp) ⟨rfl, rfl, rfl⟩
    simp only [execute] at functions ⊢
    cases hc : (s.program.tree.children f.node)[k]? with
    | none =>
      simp only [hc] at functions
      exact h.keep rfl functions h.stacked
    | some i =>
      simp only [hc] at functions
      have placed : s.program.tree.Placed D false i f.scope :=
        .part (List.mem_of_getElem? hc) hb meets placed
      exact h.keep (scopes_enter _ _ _) functions
        (stacked_enter (m := m.put { f with cursor := f.cursor + 1 } rest) stacked placed
          stacked.scope_le)
  | apply operation =>
    by_cases hcall : ∃ count, operation = .call count
    · obtain ⟨count, rfl⟩ := hcall
      exact h.execute_call hm ha out placed rfl
    · have hd : m.deedOf? s f (.apply operation) = none := by
        cases operation <;> first | rfl | exact absurd ⟨_, rfl⟩ hcall
      rw [hd]
      refine h.execute_plain hm ha out placed (by simp) (by simp) (by simp) ?_
      rintro count he
      exact hcall ⟨count, by simpa using he⟩
  | push | fetch | jump | jumpIfFalse | jumpIfInitialized | finish =>
    exact h.execute_plain hm ha out placed (by simp) (by simp) (by simp) (by simp)

/-- A step of the frame of a block that has opened its scope. -/
theorem execute_inside (o : s.program.tree.Ordered) {outside : ScopeId} {pre : List NodeId}
    (opened : .opens f.scope outside (.block f.node) ∈ D)
    (kind : s.program.tree.kind? f.node = some .block)
    (placed : s.program.tree.Placed D false f.node outside) (past : f.Past s.program.tree pre)
    (bound : (D.bound f.scope).map (·.1) =
      (pre.filter (s.program.tree.kindIs NodeKind.isBind)).reverse) :
    (m.execute s { f with cursor := f.cursor + 1 } rest a).Traced s
      ((m.deedOf? s f a).toList ++ D) := by
  have T := h.tell
  have top := h.stacked_top hm
  have hsteps := top.steps f List.mem_cons_self
  have hmem : a ∈ s.program.tree.steps f.node := hsteps ▸ List.mem_of_getElem? ha
  have plain : s.program.tree.isFunction f.node = false := by simp [Tree.isFunction, kind]
  have functions := h.functions_execute hm ha (fun _ hc => hc)
    fun hf => absurd hf (by simp [plain])
  -- it is past its first step
  have later (hne : ∀ kind message, a ∉ Tree.failSteps kind message) (hopen : a ≠ .enterScope) :
      f.steps.head? = some .enterScope ∧ f.cursor ≠ 0 := by
    have hblock := hsteps.trans (Tree.steps_of_block_step kind hmem hne)
    refine ⟨by rw [hblock]; rfl, fun h0 => hopen ?_⟩
    rw [h0, hblock] at ha
    exact (Option.some.inj ha).symm
  rcases past.cases ha with ⟨c, rest', hsplit, rfl, hg⟩ | ⟨c, rest', name, hsplit, hk, rfl, hlast, hg⟩ |
      ⟨pre', rfl, hpre, hg⟩ | rfl
  · have hc : (s.program.tree.children f.node)[pre.length]? = some c := by simp [hsplit]
    have hcur := (later (by simp [Tree.failSteps]) (by simp)).2
    have stacked : Stacked s.program.tree D ({ f with cursor := f.cursor + 1 } :: rest) :=
      h.stacked_resumes hm ⟨rfl, rfl, rfl⟩
        (.inside opened kind placed (hg _ rfl rfl rfl) bound) fun _ _ => hcur
    have hbound : (D.bound f.scope).map (·.1) = s.program.tree.bindsBefore f.node c := by
      rw [Tree.bindsBefore, o.before_eq hsplit, bound]
    simp only [execute, hc] at functions ⊢
    exact h.keep (scopes_enter _ _ _) functions
      (stacked_enter (m := m.put { f with cursor := f.cursor + 1 } rest) stacked
        (.statement opened kind (List.mem_of_getElem? hc) placed
          (hbound ▸ List.suffix_refl _) fun _ => hbound) stacked.scope_le)
  · cases hv : f.values with
    | nil =>
      have hd : m.deedOf? s f (.define name) = none := by simp [deedOf?, hlast, hv]
      rw [hd]
      simp only [execute, hv] at functions ⊢
      exact h.keep rfl functions h.stacked
    | cons v values =>
      have hd : m.deedOf? s f (.define name) = some (.binds f.scope c v) := by
        simp [deedOf?, hlast, hv]
      have hchild : c ∈ s.program.tree.children f.node := by simp [hsplit]
      obtain ⟨hhead, hcur⟩ := later (by simp [Tree.failSteps]) (by simp)
      let d : Deed := .binds f.scope c v
      have made (c : Closure) (hc : c.Made s.program.tree D) : c.Made s.program.tree (d :: D) :=
        hc.cons T d
      have elsewhere {y : ScopeId} (hy : y < f.scope) : Deeds.bound (d :: D) y = D.bound y := by
        rw [Deeds.bound_binds, if_neg (Nat.ne_of_gt hy)]
      have functions := h.functions_execute hm ha made fun hf => absurd hf (by simp [plain])
      have tell := T.bind opened hchild hk v
      have strict : ∀ g ∈ rest, g.scope < f.scope := fun g hg =>
        ((List.pairwise_cons.1 top.above).1 g hg).2 hhead hcur
      rw [hd]
      simp only [execute, hv] at functions ⊢
      refine ⟨tell, ?_, h.setting.mono made, functions, ?_⟩
      · exact Nat.lt_of_lt_of_eq h.globals (Scopes.size_defineAll ..).symm
      · refine (top.tail.cons T d fun g hg y hy => elsewhere ?_).push hsteps ?_ fun g hg => ?_
        · exact Nat.lt_of_le_of_lt hy (strict g hg)
        · refine .inside (List.mem_cons_of_mem _ opened) kind (placed.cons T d fun _ y hy => elsewhere ?_)
            (hg _ rfl rfl rfl) ?_
          · exact Nat.lt_of_le_of_lt hy (T.outside_lt opened)
          · simp [Deeds.bound_binds, d, bound, Tree.kindIs, hk, NodeKind.isBind]
        · exact ⟨Nat.le_of_lt (strict g hg), fun _ _ => strict g hg⟩
  · have hcur := (later (by simp [Tree.failSteps]) (by simp)).2
    simp only [execute] at functions ⊢
    split
    · rename_i values hv
      simp only [hv] at functions
      refine h.keep rfl functions (h.stacked_resumes hm ⟨rfl, rfl, rfl⟩ ?_ fun _ _ => hcur)
      exact .inside opened kind placed (hg _ rfl rfl rfl) (by rw [hpre]; exact bound)
    · rename_i hv
      simp only [hv] at functions
      exact h.keep rfl functions h.stacked
  · simp only [execute] at functions ⊢
    split
    · rename_i v values hv
      simp only [hv] at functions
      exact h.keep (scopes_handDown _ _ _) functions
        (stacked_handDown (m := { m with frames := rest, record := _ }) top.tail _ _)
    · rename_i hv
      simp only [hv] at functions
      exact h.keep rfl functions h.stacked

end Execute
/-- Whatever the frame on top does. -/
theorem execute (o : s.program.tree.Ordered) (h : m.Traced s D) (hm : m.frames = f :: rest)
    (ha : f.steps[f.cursor]? = some a) :
    (m.execute s { f with cursor := f.cursor + 1 } rest a).Traced s
      ((m.deedOf? s f a).toList ++ D) := by
  cases h.stacked.located f (hm ▸ List.mem_cons_self) with
  | begun out placed => exact h.execute_begun hm ha out placed
  | inside opened kind placed past bound =>
    exact h.execute_inside hm ha o opened kind placed past bound

theorem enterRoot (h : m.Traced s D) (hroot : s.root = s.program.tree.root) :
    (m.enterRoot s).Traced s (.opens m.scopes.all.size s.globals .program :: D) := by
  have T := h.tell
  let d : Deed := .opens m.scopes.all.size s.globals .program
  have made (c : Closure) (hc : c.Made s.program.tree D) : c.Made s.program.tree (d :: D) :=
    hc.cons T d
  have setting := h.setting.mono made
  have tell := T.opens_empty (u := .program) h.globals (fun _ => rfl) fun _ => rfl
  have placed : s.program.tree.Placed (d :: D) false s.root m.scopes.all.size :=
    hroot ▸ .program List.mem_cons_self
  have stacked : Stacked s.program.tree (d :: D) m.frames := h.stacked.opens T _ _ _
  refine ⟨?_, ?_, setting, (h.functions.mono made).enterRoot setting, ?_⟩
  · exact (scopes_enter (s := s) { (m.openScope s.globals).2 with started := true } _ _).symm ▸ tell
  · refine Nat.lt_of_lt_of_eq (Nat.lt_succ_of_lt h.globals) ?_
    exact (Scopes.size_addChild ..).symm.trans
      (congrArg (·.all.size) (scopes_enter (s := s)
        { (m.openScope s.globals).2 with started := true } _ _).symm)
  · exact stacked_enter (m := { (m.openScope s.globals).2 with started := true }) stacked placed
      fun g hg => Nat.le_of_lt (h.stacked.scope_lt T g hg)

theorem tick (o : s.program.tree.Ordered) (hroot : s.root = s.program.tree.root)
    (h : m.Traced s D) : (m.tick s false).Traced s ((m.deed? s).toList ++ D) := by
  have fail (fault : Fault) : (m.setRecord m.record.countStep |>.fail fault).Traced s D :=
    h.keep rfl (h.functions.of_eq rfl rfl) h.stacked
  unfold Machine.tick deed?
  split
  · exact h
  simp only [Bool.false_eq_true, if_false]
  split
  · exact h.enterRoot hroot
  split
  · exact h.keep rfl (h.functions.cutOff _) .nil
  unfold step
  cases hm : m.frames with
  | nil =>
    have : (m.setRecord m.record.countStep).frames = [] := hm
    simp only [this]
    exact fail _
  | cons f rest =>
    have hm' : (m.setRecord m.record.countStep).frames = f :: rest := hm
    simp only [hm']
    cases ha : f.steps[f.cursor]? with
    | none => exact fail _
    | some a =>
      have counted : (m.setRecord m.record.countStep).Traced s D :=
        h.keep rfl (h.functions.of_eq rfl rfl) h.stacked
      exact counted.execute o hm' ha

/-- A run adds to what was done before it. -/
theorem run (o : s.program.tree.Ordered) (hroot : s.root = s.program.tree.root)
    (h : m.Traced s D) (n : Nat) : (m.run s false n).Traced s (m.deeds s n ++ D) := by
  induction n with
  | zero => exact h
  | succ n ih =>
    rw [run_add, run_succ, run_zero, deeds, List.append_assoc]
    exact ih.tick o hroot

end Traced
end Machine

/-- What there is before a pass: scopes, and functions that earlier passes over the same tree have
made in them, if any. -/
structure Setting.Founded (s : Setting) (base : Scopes) (D : Deeds) : Prop where
  accepted : s.program.tree.Accepted
  program : s.program = .ofTree s.program.tree
  root : s.root = s.program.tree.root
  tell : D.Tell s.program.tree s.globals base
  globals : s.globals < base.all.size
  setting : s.Holds (Closure.Made s.program.tree D)
  scopes : base.Every (Closure.Made s.program.tree D)

/-- Without functions from before nothing needs to be known about earlier passes. -/
theorem Setting.founded_nil {s : Setting} {base : Scopes} (ht : s.program.tree.Accepted)
    (hp : s.program = .ofTree s.program.tree) (hroot : s.root = s.program.tree.root)
    (hn : base.Nested) (hg : s.globals < base.all.size) (hs : s.Holds fun _ => False)
    (hb : base.Every fun _ => False) : s.Founded base [] :=
  ⟨ht, hp, hroot, .nil hn, hg, hs.mono fun _ => False.elim, hb.mono fun _ => False.elim⟩

theorem Setting.Founded.traced {s : Setting} {base : Scopes} {D : Deeds} (h : s.Founded base D)
    (n : Nat) : ((Machine.start base).run s false n).Traced s ((Machine.start base).deeds s n ++ D) :=
  Machine.Traced.run h.accepted.ordered h.root
    ⟨h.tell, h.globals, h.setting, ⟨h.scopes, by simp [Machine.start]⟩, .nil⟩ n

/-- What a reference at the node `i` in the scope `x` gives, if the analysis says `r` of it.

What is said of a bind holds as it stands if no function lies between the block and the reference; it
also holds if the bind comes before and no other one of the block has its name. Otherwise what counts
is which bind of the name was run last, and a name that none was run for is looked for outside.

What is said of a parameter holds if no other one of the function has its name. -/
def Deeds.Gives (D : Deeds) (t : Tree) (base scopes : Scopes) (globals : ScopeId) (name : String)
    (i : NodeId) (x : ScopeId) : Resolution → Prop
  | .bind b => ∃ p c y o, D.FromBlock t scopes name false i x b p c y o ∧
    (t.Direct c i ∨ b ∈ t.before p c ∧ (∀ j ∈ t.children p, t.isBindOf name j = true → j = b) →
      ∃ v, D.last? t y name = some (b, v) ∧ scopes.lookup x name = some v)
  | .parameter f k => ∃ c arguments j v, D.FromCall t scopes name i x f k c arguments j v ∧
    (c.parameters.Nodup → j = k)
  | .global => scopes.lookup x name = base.lookup globals name

namespace Machine

variable {s : Setting} {base : Scopes} {D : Deeds}

/-- Whenever a machine is about to look a name up, the node is a reference, and the name gives what the
analysis says of it. -/
theorem lookup_gives (h : s.Founded base D) (n : Nat) {f : Frame} {rest : List Frame} {name : String}
    (hm : ((start base).run s false n).frames = f :: rest)
    (ha : f.steps[f.cursor]? = some (.apply (.lookup name))) :
    ∃ r, s.program.analysis.resolution? f.node = some r ∧
      ((start base).deeds s n ++ D).Gives s.program.tree base ((start base).run s false n).scopes
        s.globals name f.node f.scope r := by
  have traced := h.traced n
  have o := h.accepted.ordered
  have hf : f ∈ ((start base).run s false n).frames := hm ▸ List.mem_cons_self
  have hmem := List.mem_of_getElem? ha
  rw [traced.stacked.steps f hf] at hmem
  have hk : s.program.tree.kind? f.node = some (.reference name) :=
    Tree.meets_of_mem_steps _ hmem
  have placed : s.program.tree.Placed ((start base).deeds s n ++ D) false f.node f.scope := by
    cases traced.stacked.located f hf with
    | begun _ placed => exact placed
    | inside _ kind => exact absurd (hk.symm.trans kind) (by simp)
  have named := placed.named o h.accepted.parent_root traced.tell name
  refine ⟨s.program.tree.resolve name f.node, ?_, ?_⟩
  · have hanalysis : s.program.analysis = .ofTree s.program.tree :=
      congrArg Program.analysis h.program
    rw [hanalysis, Analysis.resolution?_ofTree]
    exact Tree.resolution?_reference hk
  · rw [Tree.resolve]
    cases hr : s.program.tree.resolveAlong name f.node false (s.program.tree.ancestors f.node) with
    | bind b =>
      rw [hr] at named
      obtain ⟨p, c, y, out, hb⟩ := named
      refine ⟨p, c, y, out, hb, fun hor => ?_⟩
      obtain ⟨v, hv⟩ : ∃ v, Deeds.last? ((start base).deeds s n ++ D) s.program.tree y name =
          some (b, v) := by
        rcases hor with hd | ⟨hbefore, hone⟩
        · exact hb.direct rfl hd
        · obtain ⟨⟨j, v⟩, hj⟩ := Option.isSome_iff_exists.1 (hb.before hbefore)
          obtain ⟨hmem, hn⟩ := hb.same hj
          exact ⟨v, hone j hmem hn ▸ hj⟩
      exact ⟨v, hv, by rw [hb.answer, hv]; rfl⟩
    | parameter g k =>
      rw [hr] at named
      obtain ⟨c, arguments, j, v, hc⟩ := named
      refine ⟨c, arguments, j, v, hc, fun hn => ?_⟩
      obtain ⟨hj, hjn⟩ := List.getElem?_eq_some_iff.1 hc.parameter
      obtain ⟨hk, hkn⟩ := List.getElem?_eq_some_iff.1 hc.first
      exact (List.getElem_inj hn).1 (hjn.trans hkn.symm)
    | global =>
      rw [hr] at named
      have preserved := preserves_run (s := s) h.tell.nested h.globals false n
      have named : _ = _ := named
      rw [Deeds.Gives, named]
      exact preserved.kept.lookup h.tell.nested preserved.nested name _ h.globals

end Machine

/-! A function whose body refers to a name that its block binds again before the call. -/

namespace Rebinding

def draft : Draft :=
  ⟨#[⟨.text "old", [], none, none⟩, ⟨.bind "x", [0], none, none⟩,
    ⟨.reference "x", [], none, none⟩, ⟨.reference "p", [], none, none⟩,
    ⟨.list, [2, 3], none, none⟩, ⟨.function ["p"], [4], none, none⟩, ⟨.bind "f", [5], none, none⟩,
    ⟨.text "new", [], none, none⟩, ⟨.bind "x", [7], none, none⟩,
    ⟨.reference "f", [], none, none⟩, ⟨.text "argument", [], none, none⟩,
    ⟨.call, [9, 10], none, none⟩, ⟨.block, [1, 6, 8, 11], none, none⟩]⟩

def tree : Tree := ((draft.finish 12).toOption).getD ⟨#[], 0⟩

def setting : Setting where
  program := .ofTree tree
  cache := .empty
  staleness := .empty
  globals := 0
  snapshot := ⟨1, []⟩
  root := tree.root
  budget := 1000
  policy := .degrade

def base : Scopes := Scopes.empty.addRoot.2

/-- After `n` ticks. -/
def after (n : Nat) : Machine := (Machine.start base).run setting false n

/-- What was done by then. -/
def done (n : Nat) : Deeds := (Machine.start base).deeds setting n

theorem founded : setting.Founded base [] :=
  Setting.founded_nil ⟨draft, 12, by decide +kernel⟩ rfl rfl Scopes.nested_root (Nat.lt_succ_self 0)
    ⟨fun i e he => by simp [setting] at he, fun stream e he => by simp [setting, Snapshot.get?] at he⟩
    Scopes.every_empty.addRoot

/-- The machine is about to look the name up for the node. -/
def looksUp (m : Machine) (i : NodeId) (name : String) : Bool :=
  m.frames.head?.any fun (f : Frame) =>
    f.node == i && match f.steps[f.cursor]? with
      | some (.apply (.lookup other)) => other == name
      | _ => false

theorem exists_frame {m : Machine} {i : NodeId} {name : String} (h : looksUp m i name = true) :
    ∃ f rest, m.frames = f :: rest ∧ f.node = i ∧
      f.steps[f.cursor]? = some (.apply (.lookup name)) := by
  obtain ⟨f, hf, h⟩ := (Option.any_eq_true _ _).1 h
  obtain ⟨rest, hm⟩ := List.head?_eq_some_iff.1 hf
  simp only [Bool.and_eq_true, beq_iff_eq] at h
  refine ⟨f, rest, hm, h.1, ?_⟩
  have h := h.2
  split at h
  · rename_i other ha
    rw [ha, beq_iff_eq.1 h]
  · cases h

end Rebinding

namespace Machine

open Rebinding

/-- The function is found where it is called, and in its body the argument. -/
theorem rebinding_gives :
    (∃ f rest, (after 26).frames = f :: rest ∧ f.node = 9 ∧
      (done 26 ++ []).Gives tree base (after 26).scopes 0 "f" f.node f.scope (.bind 6)) ∧
    ∃ f rest, (after 36).frames = f :: rest ∧ f.node = 3 ∧
      (done 36 ++ []).Gives tree base (after 36).scopes 0 "p" f.node f.scope (.parameter 5 0) := by
  obtain ⟨f, rest, hm, hf, ha⟩ := exists_frame
    (show looksUp (after 26) 9 "f" = true by decide +kernel)
  obtain ⟨g, rest', hm', hg, ha'⟩ := exists_frame
    (show looksUp (after 36) 3 "p" = true by decide +kernel)
  refine ⟨⟨f, rest, hm, hf, ?_⟩, g, rest', hm', hg, ?_⟩
  · obtain ⟨r, hr, gives⟩ := lookup_gives founded 26 hm ha
    have hres : setting.program.analysis.resolution? 9 = some (.bind 6) := by decide +kernel
    rw [hf, hres] at hr
    exact Option.some.inj hr ▸ gives
  · obtain ⟨r, hr, gives⟩ := lookup_gives founded 36 hm' ha'
    have hres : setting.program.analysis.resolution? 3 = some (.parameter 5 0) := by decide +kernel
    rw [hg, hres] at hr
    exact Option.some.inj hr ▸ gives

/-- What the analysis says of a reference is not always what it finds: here the bind that the reference
is said to refer to has one value in the innermost run of its block, and the name gives another. -/
theorem exists_not_given : ∃ (n : Nat) (f : Frame) (rest : List Frame) (b p : NodeId) (y o : ScopeId)
    (v w : Value), (after n).frames = f :: rest ∧
      f.steps[f.cursor]? = some (.apply (.lookup "x")) ∧
      setting.program.analysis.resolution? f.node = some (.bind b) ∧ b ∈ tree.children p ∧
      (done n).Innermost (· = .block p) f.scope y o (.block p) ∧
      ((done n).bound y).find? (·.1 == b) = some (b, v) ∧
      (after n).scopes.lookup f.scope "x" = some w ∧ v.equal w = false := by
  obtain ⟨f, rest, hm, hf, ha⟩ := exists_frame
    (show looksUp (after 33) 2 "x" = true by decide +kernel)
  have hscope : ((after 33).frames.head?.map (·.scope)) = some 3 := by decide +kernel
  have hscope : f.scope = 3 := by simpa [hm] using hscope
  have hcall : (done 33).any (fun | .opens 3 2 (.call _ _) => true | _ => false) = true := by
    decide +kernel
  have hblock : (done 33).any (fun | .opens 2 1 (.block 12) => true | _ => false) = true := by
    decide +kernel
  have hvalues : (((done 33).bound 2).find? (·.1 == 1)).any (fun e =>
      ((after 33).scopes.lookup 3 "x").any fun w => !e.2.equal w) = true := by decide +kernel
  obtain ⟨d, hd, h⟩ := List.any_eq_true.1 hcall
  obtain ⟨d', hd', h'⟩ := List.any_eq_true.1 hblock
  obtain ⟨⟨b, v⟩, hv, h''⟩ := (Option.any_eq_true _ _).1 hvalues
  obtain ⟨w, hw, hne⟩ := (Option.any_eq_true _ _).1 h''
  split at h
  swap
  · cases h
  split at h'
  swap
  · cases h'
  have hb : b = 1 := by simpa using List.find?_some hv
  subst hb
  refine ⟨33, f, rest, 1, 12, 2, 1, v, w, hm, ha, ?_, by decide +kernel, ?_, hv, hscope ▸ hw,
    by simpa using hne⟩
  · rw [hf]
    decide +kernel
  · rw [hscope]
    exact .around hd (by simp) (.here hd' rfl)

end Machine
end StreamLang
