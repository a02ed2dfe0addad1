import StreamLang.Machine.Run
/-!
What a step can do to a machine, said once. Most steps go on with their frame, some read a stream,
bind a name, open a scope or put another frame on top, and the last one hands the result down. What
each of these keeps, every run keeps.
-/
namespace StreamLang

/-- The frame goes on: it runs the same steps for the same node in the same scope. -/
structure Frame.Resumes (f g : Frame) : Prop where
  node : g.node = f.node
  steps : g.steps = f.steps
  scope : g.scope = f.scope

theorem Frame.Resumes.of_eq {f g k : Frame} (h : f.Resumes g) (node : k.node = g.node)
    (steps : k.steps = g.steps) (scope : k.scope = g.scope) : f.Resumes k :=
  ⟨node.trans h.node, steps.trans h.steps, scope.trans h.scope⟩

namespace Machine

theorem record_handDown (m : Machine) (version : Option Nat) (v : Value) :
    (m.handDown version v).record = m.record := by
  unfold handDown
  split <;> rfl

theorem scopes_call {s : Setting} (m : Machine) (i : NodeId) (x : ScopeId) : (m.call s i x).scopes = m.scopes :=
  call_induction (I := fun m' => m'.scopes = m.scopes) (fun _ => rfl) fun _ => rfl

theorem writes_call {s : Setting} (m : Machine) (i : NodeId) (x : ScopeId) :
    (m.call s i x).record.writes = m.record.writes :=
  call_induction (I := fun m' => m'.record.writes = m.record.writes) (fun _ => rfl) fun _ => rfl

/-- What becomes of a machine with the frame `f` on top of `rest` by a step of that frame. -/
inductive Moved (s : Setting) (m : Machine) (f : Frame) (rest : List Frame) :
    Step → Machine → Prop where
  | failed {a} (fault : Fault) : Moved s m f rest a (m.fail fault)
  | resumed {a g} (ha : a ≠ .enterScope) (h : f.Resumes g) : Moved s m f rest a (m.put g rest)
  | read {g stream mode} (h : f.Resumes g) : Moved s m f rest (.fetch stream mode)
      ((m.setRecord (fetch s m.record f.node stream mode).2.2).put g rest)
  | defined {g name v} (h : f.Resumes g) :
    Moved s m f rest (.define name) ((m.put g rest).define f.scope [(name, v)])
  | opened {g} (node : g.node = f.node) (steps : g.steps = f.steps)
    (scope : g.scope = (m.openScope f.scope).1) :
    Moved s m f rest .enterScope ((m.openScope f.scope).2.put g rest)
  | entered {g index i} (h : f.Resumes g) :
    Moved s m f rest (.evaluate index) ((m.put g rest).enter s i f.scope)
  /-- The body of a function runs in a new scope inside the one that the function has kept. -/
  | called {g count} {c : Closure} {arguments : List Value} (live : c.scope < m.scopes.all.size)
    (h : f.Resumes g) : Moved s m f rest (.apply (.call count))
      ((((m.put g rest).openScope c.scope).2.define ((m.put g rest).openScope c.scope).1
        (c.parameters.zip arguments)).call s c.body ((m.put g rest).openScope c.scope).1)
  | finished {g version v} (h : f.Resumes g) : Moved s m f rest .finish
      ({ m with frames := rest, record := s.noteFinish m.record g v }.handDown version v)

variable {s : Setting} {m : Machine} {f g : Frame} {rest : List Frame}

theorem moved_applyCallee {count : Nat} (h : f.Resumes g) (target : Value)
    (arguments : List Value) :
    Moved s m f rest (.apply (.call count)) (m.applyCallee s g rest target arguments) := by
  unfold applyCallee
  split
  · exact .resumed (by simp) (h.of_eq rfl rfl rfl)
  · split
    · exact .failed _
    · exact .called (Nat.lt_of_not_le ‹_›) h

theorem moved_apply (h : f.Resumes g) (o : Operation) :
    Moved s m f rest (.apply o) (m.apply s g rest o) := by
  have go {g' : Frame} (hn : g'.node = g.node) (hs : g'.steps = g.steps) (hx : g'.scope = g.scope) :
      Moved s m f rest (.apply o) (m.put g' rest) := .resumed (by simp) (h.of_eq hn hs hx)
  cases o with
  | call count =>
    simp only [apply]
    split
    · exact .failed _
    · split
      · rename_i target values _
        exact moved_applyCallee (h.of_eq (k := { g with values }) rfl rfl rfl) _ _
      · exact .failed _
  | binary | unary | property =>
    simp only [apply]
    split
    · exact go rfl rfl rfl
    · exact .failed _
  | makeList | makeStruct =>
    simp only [apply]
    split
    · exact .failed _
    · exact go rfl rfl rfl
  | lookup | makeFunction | previous | fail => exact go rfl rfl rfl

theorem moved_execute (h : f.Resumes g) (a : Step) :
    Moved s m f rest a (m.execute s g rest a) := by
  have go {a : Step} {g' : Frame} (ha : a ≠ .enterScope) (hn : g'.node = g.node)
      (hs : g'.steps = g.steps) (hx : g'.scope = g.scope) : Moved s m f rest a (m.put g' rest) :=
    .resumed ha (h.of_eq hn hs hx)
  cases a with
  | push v => exact go (by simp) rfl rfl rfl
  | evaluate index =>
    simp only [execute]
    split
    · exact .failed _
    · rw [h.scope]
      exact .entered h
  | apply o => exact moved_apply h o
  | fetch stream mode =>
    simp only [execute, h.node]
    exact .read (h.of_eq rfl rfl rfl)
  | define name =>
    simp only [execute]
    split
    · rw [h.scope]
      exact .defined h
    · exact .failed _
  | discard =>
    simp only [execute]
    split
    · exact go (by simp) rfl rfl rfl
    · exact .failed _
  | enterScope =>
    simp only [execute, h.scope]
    exact .opened h.node h.steps rfl
  | jump target => exact go (by simp) rfl rfl rfl
  | jumpIfFalse target =>
    simp only [execute]
    split
    · refine go (by simp) ?_ ?_ ?_ <;> unfold branch <;> split <;> rfl
    · exact .failed _
  | jumpIfInitialized target => refine go (by simp) ?_ ?_ ?_ <;> split <;> rfl
  | finish =>
    simp only [execute]
    split
    · exact .finished h
    · exact .failed _

/-- What a tick can make of a machine. -/
inductive Ticked (s : Setting) (m : Machine) : Machine → Prop where
  | ended (h : m.isRunning = false) : Ticked s m m
  | cutOff (T : Terminal) : Ticked s m (m.cutOff T)
  | entered (h : m.started = false) : Ticked s m (m.enterRoot s)
  | failed (fault : Fault) : Ticked s m ((m.setRecord m.record.countStep).fail fault)
  | executed {f : Frame} {rest : List Frame} {a : Step} (hm : m.frames = f :: rest)
      (ha : f.steps[f.cursor]? = some a) : Ticked s m
        ((m.setRecord m.record.countStep).execute s { f with cursor := f.cursor + 1 } rest a)

theorem ticked {abort : Bool} (h : m.tick s abort = m') : Ticked s m m' := by
  obtain rfl := h
  unfold tick
  split
  · exact .ended (by simp_all)
  split
  · exact .cutOff _
  split
  · exact .entered (by simp_all)
  split
  · exact .cutOff _
  unfold step
  split
  · exact .failed _
  · rename_i hm
    split
    · exact .failed _
    · exact .executed hm ‹_›

/-- A property of machines that is kept by all that a tick can do. -/
structure Invariant (s : Setting) (I : Machine → Prop) : Prop where
  cutOff : ∀ m T, I m → I (m.cutOff T)
  enterRoot : ∀ m, I m → I (m.enterRoot s)
  countStep : ∀ m, I m → I (m.setRecord m.record.countStep)
  fail : ∀ m fault, I m → I (m.fail fault)
  moved : ∀ m f rest a m', I m → m.frames = f :: rest → f.steps[f.cursor]? = some a →
    Moved s m f rest a m' → I m'

namespace Invariant

variable {I : Machine → Prop} (inv : Invariant s I)
include inv

theorem tick (h : I m) (abort : Bool) : I (m.tick s abort) := by
  generalize hm' : m.tick s abort = m'
  cases ticked hm' with
  | ended => exact h
  | cutOff T => exact inv.cutOff m T h
  | entered => exact inv.enterRoot m h
  | failed fault => exact inv.fail _ fault (inv.countStep m h)
  | @executed f rest a hm ha =>
    have resumes : f.Resumes { f with cursor := f.cursor + 1 } := ⟨rfl, rfl, rfl⟩
    exact inv.moved _ f rest a _ (inv.countStep m h) hm ha (moved_execute resumes a)

theorem run (h : I m) (abort : Bool) (n : Nat) : I (m.run s abort n) := by
  induction n generalizing m with
  | zero => exact h
  | succ n ih =>
    rw [run_succ]
    exact ih (inv.tick h abort)

end Invariant

/-! ### Starting -/

theorem started_handDown (m : Machine) (version : Option Nat) (v : Value) :
    (m.handDown version v).started = m.started := by
  unfold handDown
  split <;> rfl

theorem started_call (i : NodeId) (x : ScopeId) : (m.call s i x).started = m.started :=
  call_induction (I := fun m' => m'.started = m.started) (fun _ => rfl) fun _ => rfl

theorem started_enter (i : NodeId) (x : ScopeId) : (m.enter s i x).started = m.started := by
  unfold enter
  split
  · rw [started_handDown]
    rfl
  · exact started_call i x

theorem started_moved {a : Step} (h : Moved s m f rest a m') : m'.started = m.started := by
  cases h with
  | failed | resumed | read | defined | opened => rfl
  | called => rw [started_call]; rfl
  | entered =>
    rw [started_enter]
    rfl
  | finished => rw [started_handDown]

/-- Before the root has been entered there is no frame. -/
theorem started_invariant (s : Setting) : Invariant s fun m => m.started = true ∨ m.frames = [] where
  cutOff _ _ _ := .inr rfl
  enterRoot m _ := .inl (by rw [enterRoot, started_enter])
  countStep _ h := h
  fail _ _ h := h
  moved m f rest a m' h hm _ hmoved := by
    have hs : m.started = true := h.resolve_right (by simp [hm])
    exact .inl ((started_moved hmoved).trans hs)

end Machine
end StreamLang
