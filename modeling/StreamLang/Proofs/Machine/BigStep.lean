import StreamLang.Machine.Run
/-!
What a frame comes to, told without the frames below it. A step either goes on with its frame, puts
another one on top of it, hands the result down, or breaks the machine. From these four a big-step
relation is built, and it is adequate: a machine that ends with a value has run through it, and what
it says the machine does whenever the budget is large enough.
-/
namespace StreamLang

/-- What a pass works on besides its frames and the count of its steps. -/
@[ext] structure State where
  record : Record
  scopes : Scopes
  uncounted : record.steps = 0

namespace Record

/-- The same record at another count of steps. -/
def withSteps (r : Record) (n : Nat) : Record := { r with steps := n }

end Record

namespace Setting

variable (s : Setting) (r : Record)

theorem noteReuse_withSteps (n : Nat) (i : NodeId) :
    s.noteReuse (r.withSteps n) i = (s.noteReuse r i).withSteps n := by
  unfold noteReuse
  split <;> split <;> rfl

theorem noteFinish_withSteps (n : Nat) (f : Frame) (v : Value) :
    s.noteFinish (r.withSteps n) f v = (s.noteFinish r f v).withSteps n := by
  unfold noteFinish
  simp only
  split <;> rfl

theorem steps_noteReuse (i : NodeId) : (s.noteReuse r i).steps = r.steps := by
  unfold noteReuse
  split <;> split <;> rfl

theorem steps_noteFinish (f : Frame) (v : Value) : (s.noteFinish r f v).steps = r.steps := by
  unfold noteFinish
  simp only
  split <;> rfl

end Setting

namespace Machine

theorem fetch_withSteps (s : Setting) (r : Record) (n : Nat) (i : NodeId) (stream : String)
    (mode : FetchMode) : fetch s (r.withSteps n) i stream mode =
      ((fetch s r i stream mode).1, (fetch s r i stream mode).2.1,
        (fetch s r i stream mode).2.2.withSteps n) := by
  unfold fetch
  split
  · rfl
  · cases mode with
    | changed => simp only; split <;> rfl
    | latest =>
      simp only
      split
      · cases s.policy <;> simp only <;> split <;> rfl
      · split <;> rfl

theorem steps_fetch (s : Setting) (r : Record) (i : NodeId) (stream : String)
    (mode : FetchMode) : (fetch s r i stream mode).2.2.steps = r.steps := by
  unfold fetch
  split
  · rfl
  · cases mode with
    | changed => simp only; split <;> rfl
    | latest =>
      simp only
      split
      · cases s.policy <;> simp only <;> split <;> rfl
      · split <;> rfl

end Machine

namespace State

variable (s : Setting) (σ : State)

/-- A node has been entered to run. -/
def enter (i : NodeId) : State := ⟨σ.record.countEvaluation i, σ.scopes, σ.uncounted⟩

/-- The committed value of a node has been used. -/
def reuse (i : NodeId) : State :=
  ⟨s.noteReuse σ.record i, σ.scopes, (s.steps_noteReuse _ i).trans σ.uncounted⟩

/-- A node has finished. -/
def finish (i : NodeId) (version : Option Nat) (v : Value) : State :=
  ⟨s.noteFinish σ.record ⟨i, [], 0, [], 0, version⟩ v, σ.scopes,
    (s.steps_noteFinish _ _ v).trans σ.uncounted⟩

/-- A stream has been read. -/
def read (i : NodeId) (stream : String) (mode : FetchMode) : State :=
  ⟨(Machine.fetch s σ.record i stream mode).2.2, σ.scopes,
    (Machine.steps_fetch s _ i stream mode).trans σ.uncounted⟩

/-- A scope has been opened inside another. -/
def openScope (x : ScopeId) : State := ⟨σ.record, (σ.scopes.addChild x).2, σ.uncounted⟩

/-- Names have been bound in a scope. -/
def define (x : ScopeId) (bindings : List (String × Value)) : State :=
  ⟨σ.record, σ.scopes.defineAll x bindings, σ.uncounted⟩

end State

namespace Machine

/-- A running machine that has taken `n` steps. -/
def busy (n : Nat) (frames : List Frame) (σ : State) : Machine :=
  ⟨frames, σ.record.withSteps n, σ.scopes, true, .running⟩

/-- A counted step. -/
def advance (s : Setting) (m : Machine) : Machine := (m.setRecord m.record.countStep).step s

/-- The node that finishes with the next step, and its value. -/
def finishing? (m : Machine) : Option (NodeId × Value) :=
  match m.frames with
  | [] => none
  | f :: _ =>
    match f.steps[f.cursor]?, f.values with
    | some .finish, v :: _ => some (f.node, v)
    | _, _ => none

/-- The node that finishes with the next tick, and its value. -/
def completing? (s : Setting) (m : Machine) : Option (NodeId × Value) :=
  if m.isRunning && m.started && decide (m.record.steps < s.budget) then m.finishing? else none

variable {s : Setting} {f : Frame} {σ : State}

theorem completing?_busy {n : Nat} (h : n < s.budget) (frames : List Frame) :
    (busy n frames σ).completing? s = (busy n frames σ).finishing? :=
  if_pos (decide_eq_true h)

theorem advance_busy (n : Nat) (rest : List Frame) : (busy n (f :: rest) σ).advance s =
    match f.steps[f.cursor]? with
    | none => (busy (n + 1) (f :: rest) σ).fail (.pastEnd f.node)
    | some step =>
      (busy (n + 1) (f :: rest) σ).execute s { f with cursor := f.cursor + 1 } rest step := rfl

/-- The four things that a step can do, whatever lies below its frame and however many were made. -/
inductive Outcome (s : Setting) (f : Frame) (σ : State) : Prop where
  | move (f' : Frame) (σ' : State)
    (h : ∀ n rest, (busy n (f :: rest) σ).advance s = busy (n + 1) (f' :: rest) σ')
  | nest (g f' : Frame) (σ' : State)
    (h : ∀ n rest, (busy n (f :: rest) σ).advance s = busy (n + 1) (g :: f' :: rest) σ')
  | done (v : Value) (version : Option Nat) (σ' : State)
    (h : ∀ n rest, (busy n (f :: rest) σ).advance s =
      (busy (n + 1) rest σ').handDown version v)
    (value : ∀ n rest, (busy n (f :: rest) σ).finishing? = some (f.node, v))
  | broken (fault : Fault)
    (h : ∀ n rest, ((busy n (f :: rest) σ).advance s).status = .broken fault)

theorem enter_of_reuse {i : NodeId} {x : ScopeId} {v : Value} (hr : s.reuse? σ.record i = some v)
    (n : Nat) (frames : List Frame) :
    (busy n frames σ).enter s i x = (busy n frames (σ.reuse s i)).handDown none v := by
  have hr' : s.reuse? (busy n frames σ).record i = some v := hr
  have hn : s.noteReuse (busy n frames σ).record i = (s.noteReuse σ.record i).withSteps n :=
    s.noteReuse_withSteps σ.record n i
  rw [enter, hr']
  simp only [hn]
  rfl

theorem enter_of_call {i : NodeId} {x : ScopeId} (hr : s.reuse? σ.record i = none)
    (n : Nat) (frames : List Frame) :
    (busy n frames σ).enter s i x = (busy n frames σ).call s i x := by
  have hr' : s.reuse? (busy n frames σ).record i = none := hr
  rw [enter, hr']

theorem call_busy {i : NodeId} {x : ScopeId} (hi : i < s.program.tree.size) (n : Nat)
    (frames : List Frame) : (busy n frames σ).call s i x =
      busy n (.start i (s.program.tree.steps i) x :: frames) (σ.enter i) := call_of_lt hi _ _

theorem enter_of_run {i : NodeId} {x : ScopeId} (hr : s.reuse? σ.record i = none)
    (hi : i < s.program.tree.size) (n : Nat) (frames : List Frame) :
    (busy n frames σ).enter s i x =
      busy n (.start i (s.program.tree.steps i) x :: frames) (σ.enter i) :=
  (enter_of_call hr n frames).trans (call_busy hi n frames)

theorem outcome_enter {g : Frame} {i : NodeId} {x : ScopeId}
    (h : ∀ n rest, (busy n (f :: rest) σ).advance s =
      (busy (n + 1) (g :: rest) σ).enter s i x) : Outcome s f σ := by
  cases hr : s.reuse? σ.record i with
  | some v =>
    exact .move ((g.observe none).push v) (σ.reuse s i) fun n rest => by
      rw [h, enter_of_reuse hr]
      rfl
  | none =>
    rcases Nat.lt_or_ge i s.program.tree.size with hi | hi
    · exact .nest (.start i (s.program.tree.steps i) x) g (σ.enter i) fun n rest => by
        rw [h, enter_of_run hr hi]
    · exact .broken (.outside i s.program.tree.size) fun n rest => by
        rw [h, enter_of_call hr, call_of_outside hi]
        rfl

theorem outcome_apply {g : Frame} {o : Operation}
    (h : ∀ n rest, (busy n (f :: rest) σ).advance s =
      (busy (n + 1) (f :: rest) σ).apply s g rest o) : Outcome s f σ := by
  have go (k : Frame) (h' : ∀ n rest, (busy n (f :: rest) σ).apply s g rest o =
      (busy n (f :: rest) σ).put k rest) : Outcome s f σ :=
    .move k σ fun n rest => by rw [h, h']; rfl
  have stop (fault : Fault) (h' : ∀ n rest, (busy n (f :: rest) σ).apply s g rest o =
      (busy n (f :: rest) σ).fail fault) : Outcome s f σ :=
    .broken fault fun n rest => by rw [h, h']; rfl
  cases o with
  | binary operator =>
    rcases hv : g.values with _ | ⟨b, _ | ⟨a, values⟩⟩
    · exact stop (.noValue g.node) fun n rest => by simp only [apply, hv]
    · exact stop (.noValue g.node) fun n rest => by simp only [apply, hv]
    · exact go _ fun n rest => by simp only [apply, hv]; rfl
  | unary operator =>
    cases hv : g.values with
    | nil => exact stop (.noValue g.node) fun n rest => by simp only [apply, hv]
    | cons a values => exact go _ fun n rest => by simp only [apply, hv]; rfl
  | lookup name =>
    exact go (g.push ((σ.scopes.lookup g.scope name).getD
      (.failure .unknownName ("`" ++ name ++ "` is not defined") g.node))) fun n rest => rfl
  | property name =>
    cases hv : g.values with
    | nil => exact stop (.noValue g.node) fun n rest => by simp only [apply, hv]
    | cons a values => exact go _ fun n rest => by simp only [apply, hv]; rfl
  | makeList count =>
    by_cases hc : g.values.length < count
    · exact stop (.fewValues g.node count g.values.length) fun n rest => by
        simp only [apply, hc, if_true]
    · exact go _ fun n rest => by simp only [apply, hc, if_false]; rfl
  | makeStruct names =>
    by_cases hc : g.values.length < names.length
    · exact stop (.fewValues g.node names.length g.values.length) fun n rest => by
        simp only [apply, hc, if_true]
    · exact go _ fun n rest => by simp only [apply, hc, if_false]; rfl
  | makeFunction function body parameters => exact go _ fun n rest => rfl
  | call count =>
    by_cases hc : g.values.length < count
    · exact stop (.fewValues g.node count g.values.length) fun n rest => by
        simp only [apply, hc, if_true]
    cases hv : g.values.drop count with
    | nil => exact stop (.noValue g.node) fun n rest => by simp only [apply, hc, if_false, hv]
    | cons target values =>
      cases hk : callee g.node target (g.lastValues count).length with
      | value v =>
        exact go _ fun n rest => by simp only [apply, hc, if_false, hv, applyCallee, hk]; rfl
      | body c =>
        by_cases hs : σ.scopes.all.size ≤ c.scope
        · exact stop (.lostScope c.function) fun n rest => by
            simp only [apply, hc, if_false, hv, applyCallee, hk, busy, hs, if_true]
        · have hcall (n : Nat) (rest : List Frame) : (busy n (f :: rest) σ).advance s =
              (busy (n + 1) ({ g with values } :: rest) ((σ.openScope c.scope).define
                (σ.scopes.addChild c.scope).1 (c.parameters.zip (g.lastValues count)))).call s
                c.body (σ.scopes.addChild c.scope).1 := by
            rw [h]
            simp only [apply, hc, if_false, hv, applyCallee, hk, busy, hs]
            rfl
          rcases Nat.lt_or_ge c.body s.program.tree.size with hb | hb
          · exact .nest _ _ _ fun n rest => (hcall n rest).trans (call_busy hb _ _)
          · exact .broken (.outside c.body s.program.tree.size) fun n rest => by
              rw [hcall, call_of_outside hb]
              rfl
  | previous reaction => exact go _ fun n rest => rfl
  | fail kind message => exact go _ fun n rest => rfl

theorem outcome (s : Setting) (f : Frame) (σ : State) : Outcome s f σ := by
  cases hs : f.steps[f.cursor]? with
  | none => exact .broken (.pastEnd f.node) fun n rest => by rw [advance_busy, hs]; rfl
  | some step =>
    have h (n : Nat) (rest : List Frame) : (busy n (f :: rest) σ).advance s =
        (busy (n + 1) (f :: rest) σ).execute s { f with cursor := f.cursor + 1 } rest step := by
      rw [advance_busy, hs]
    have stop (fault : Fault) (h' : ∀ n rest, (busy n (f :: rest) σ).execute s
        { f with cursor := f.cursor + 1 } rest step = (busy n (f :: rest) σ).fail fault) :
        Outcome s f σ := .broken fault fun n rest => by rw [h, h']; rfl
    have go (g : Frame) (σ₁ : State) (h' : ∀ n rest, (busy n (f :: rest) σ).execute s
        { f with cursor := f.cursor + 1 } rest step = busy n (g :: rest) σ₁) :
        Outcome s f σ := .move g σ₁ fun n rest => by rw [h, h']
    cases step with
    | push v => exact go _ σ fun n rest => rfl
    | evaluate index =>
      cases hc : (s.program.tree.children f.node)[index]? with
      | none => exact stop (.noChild f.node index) fun n rest => by simp only [execute, hc]
      | some i =>
        exact outcome_enter (g := { f with cursor := f.cursor + 1 }) (i := i) (x := f.scope)
          fun n rest => by rw [h]; simp only [execute, hc]; rfl
    | apply o =>
      exact outcome_apply (g := { f with cursor := f.cursor + 1 }) (o := o)
        fun n rest => by rw [h]; rfl
    | fetch stream mode =>
      refine go (({ f with cursor := f.cursor + 1 }.observe
        (fetch s σ.record f.node stream mode).2.1).push (fetch s σ.record f.node stream mode).1)
        (σ.read s f.node stream mode) fun n rest => ?_
      have hf := fetch_withSteps s σ.record n f.node stream mode
      simp only [execute, busy, hf]
      rfl
    | define name =>
      cases hv : f.values with
      | nil => exact stop (.noValue f.node) fun n rest => by simp only [execute, hv]
      | cons v values =>
        exact go { f with cursor := f.cursor + 1 } (σ.define f.scope [(name, v)])
          fun n rest => by simp only [execute, hv]; rfl
    | discard =>
      cases hv : f.values with
      | nil => exact stop (.noValue f.node) fun n rest => by simp only [execute, hv]
      | cons v values => exact go _ σ fun n rest => by simp only [execute, hv]; rfl
    | enterScope =>
      exact go { f with cursor := f.cursor + 1, scope := (σ.scopes.addChild f.scope).1 }
        (σ.openScope f.scope) fun n rest => rfl
    | jump target => exact go _ σ fun n rest => rfl
    | jumpIfFalse target =>
      cases hv : f.values with
      | nil => exact stop (.noValue f.node) fun n rest => by simp only [execute, hv]
      | cons v values => exact go _ σ fun n rest => by simp only [execute, hv]; rfl
    | jumpIfInitialized target => exact go _ σ fun n rest => rfl
    | finish =>
      cases hv : f.values with
      | nil => exact stop (.noValue f.node) fun n rest => by simp only [execute, hv]
      | cons v values =>
        refine .done v f.streamVersion (σ.finish s f.node f.streamVersion v)
          (fun n rest => ?_) fun n rest => ?_
        · have hn := s.noteFinish_withSteps σ.record (n + 1)
            { f with cursor := f.cursor + 1, values := v :: values } v
          rw [h]
          simp only [execute, hv, busy, hn]
          rfl
        · simp only [finishing?, busy, hs, hv]

/-- Running a frame to its end takes so many steps, gives a value with the newest version read for
it, and leaves a state behind. Every node that finishes on the way does so with a value that `P`
allows. -/
inductive Runs (s : Setting) (P : NodeId → Value → Prop) :
    Nat → Frame → State → Value → Option Nat → State → Prop where
  | done {f σ v version σ'}
    (h : ∀ n rest, (busy n (f :: rest) σ).advance s = (busy (n + 1) rest σ').handDown version v)
    (ok : P f.node v) : Runs s P 1 f σ v version σ'
  | move {k f f' σ σ₁ v version σ'}
    (h : ∀ n rest, (busy n (f :: rest) σ).advance s = busy (n + 1) (f' :: rest) σ₁)
    (onwards : Runs s P k f' σ₁ v version σ') : Runs s P (k + 1) f σ v version σ'
  | nest {j k f f' g σ σ₁ σ₂ w versionW v version σ'}
    (h : ∀ n rest, (busy n (f :: rest) σ).advance s = busy (n + 1) (g :: f' :: rest) σ₁)
    (inner : Runs s P j g σ₁ w versionW σ₂)
    (onwards : Runs s P k ((f'.observe versionW).push w) σ₂ v version σ') :
    Runs s P (j + k + 1) f σ v version σ'

/-- Running a frame comes to its end. -/
def Completes (s : Setting) (P : NodeId → Value → Prop) (f : Frame) (σ : State) (v : Value)
    (version : Option Nat) (σ' : State) : Prop := ∃ k, Runs s P k f σ v version σ'

theorem busy_inj {n : Nat} {frames frames' : List Frame} {σ σ' : State}
    (h : busy n frames σ = busy n frames' σ') : frames = frames' ∧ σ = σ' := by
  obtain ⟨r, c, hr⟩ := σ
  obtain ⟨r', c', hr'⟩ := σ'
  obtain ⟨hf, hrec, hc⟩ : frames = frames' ∧ r.withSteps n = r'.withSteps n ∧ c = c' := by
    simpa [busy] using h
  have hrec : r = r' := by
    obtain ⟨⟩ := r
    obtain ⟨⟩ := r'
    simp only at hr hr'
    simpa [Record.withSteps, hr, hr'] using hrec
  subst hf hrec hc
  exact ⟨rfl, rfl⟩

theorem handDown_nil (n : Nat) (σ : State) (version : Option Nat) (v : Value) :
    (busy n [] σ).handDown version v =
      ⟨[], σ.record.withSteps n, σ.scopes, true, .ended (.ofValue v)⟩ := rfl

theorem handDown_cons (n : Nat) (f : Frame) (rest : List Frame) (σ : State) (version : Option Nat)
    (v : Value) : (busy n (f :: rest) σ).handDown version v =
      busy n ((f.observe version).push v :: rest) σ := rfl

theorem busy_ne_handDown {f : Frame} {σ σ' : State} {version : Option Nat} {v : Value}
    {r : List Frame} {n : Nat} {m : List Frame → Machine}
    (h : ∀ rest, m rest = busy n (f :: (r ++ rest)) σ)
    (h' : ∀ rest, m rest = (busy n rest σ').handDown version v) : False := by
  have := (h []).symm.trans (h' [])
  rw [handDown_nil] at this
  simp [busy] at this

theorem handDown_inj {n : Nat} {σ σ' : State} {version version' : Option Nat} {v v' : Value}
    (h : ∀ rest, (busy n rest σ).handDown version v = (busy n rest σ').handDown version' v') :
    v = v' ∧ version = version' ∧ σ = σ' := by
  have h := h [.start 0 [] 0]
  rw [handDown_cons, handDown_cons] at h
  obtain ⟨hf, hσ⟩ := busy_inj h
  simp only [Frame.push, Frame.observe, Frame.start, List.cons.injEq, Frame.mk.injEq, and_true,
    true_and] at hf
  exact ⟨hf.1, by simpa [Frame.newer] using hf.2, hσ⟩

/-- Running a frame to its end, if frames that are put on top of it come to what `E` says. -/
inductive Follows (s : Setting) (P : NodeId → Value → Prop)
    (E : Frame → State → Value → Option Nat → State → Prop) :
    Frame → State → Value → Option Nat → State → Prop where
  | done {f σ v version σ'}
    (h : ∀ n rest, (busy n (f :: rest) σ).advance s = (busy (n + 1) rest σ').handDown version v)
    (ok : P f.node v) : Follows s P E f σ v version σ'
  | move {f f' σ σ₁ v version σ'}
    (h : ∀ n rest, (busy n (f :: rest) σ).advance s = busy (n + 1) (f' :: rest) σ₁)
    (onwards : Follows s P E f' σ₁ v version σ') : Follows s P E f σ v version σ'
  | nest {f f' g σ σ₁ σ₂ w versionW v version σ'}
    (h : ∀ n rest, (busy n (f :: rest) σ).advance s = busy (n + 1) (g :: f' :: rest) σ₁)
    (inner : E g σ₁ w versionW σ₂)
    (onwards : Follows s P E ((f'.observe versionW).push w) σ₂ v version σ') :
    Follows s P E f σ v version σ'

section Unfolding

variable {P : NodeId → Value → Prop} {E : Frame → State → Value → Option Nat → State → Prop}
  {v : Value} {version : Option Nat} {σ' : State}

/-- What is put on top of a frame takes fewer steps than the frame. -/
theorem Runs.follows {k l : Nat} (h : Runs s P l f σ v version σ') (hl : l ≤ k) :
    Follows s P (fun g τ w versionW τ' => ∃ j < k, Runs s P j g τ w versionW τ') f σ v version
      σ' := by
  induction h with
  | done h ok => exact .done h ok
  | move h _ ih => exact .move h (ih (by omega))
  | nest h inner _ _ ih => exact .nest h ⟨_, by omega, inner⟩ (ih (by omega))

theorem completes_iff : Completes s P f σ v version σ' ↔
    Follows s P (Completes s P) f σ v version σ' := by
  constructor
  · rintro ⟨k, h⟩
    induction h with
    | done h ok => exact .done h ok
    | move h _ ih => exact .move h ih
    | nest h inner _ _ ih => exact .nest h ⟨_, inner⟩ ih
  · intro h
    induction h with
    | done h ok => exact ⟨1, .done h ok⟩
    | move h _ ih =>
      obtain ⟨k, hk⟩ := ih
      exact ⟨_, .move h hk⟩
    | nest h inner _ ih =>
      obtain ⟨j, hj⟩ := inner
      obtain ⟨k, hk⟩ := ih
      exact ⟨_, .nest h hj hk⟩

theorem follows_move {f' : Frame} {σ₁ : State}
    (h : ∀ n rest, (busy n (f :: rest) σ).advance s = busy (n + 1) (f' :: rest) σ₁) :
    Follows s P E f σ v version σ' ↔ Follows s P E f' σ₁ v version σ' := by
  constructor
  · intro hf
    cases hf with
    | done h' ok => exact (busy_ne_handDown (r := []) (h 0) (h' 0)).elim
    | move h' onwards =>
      obtain ⟨hf, rfl⟩ := busy_inj ((h 0 []).symm.trans (h' 0 []))
      obtain ⟨rfl, -⟩ := List.cons.inj hf
      exact onwards
    | nest h' inner onwards =>
      have := (busy_inj ((h 0 []).symm.trans (h' 0 []))).1
      simp at this
  · exact .move h

theorem follows_nest {g f' : Frame} {σ₁ : State}
    (h : ∀ n rest, (busy n (f :: rest) σ).advance s = busy (n + 1) (g :: f' :: rest) σ₁) :
    Follows s P E f σ v version σ' ↔ ∃ w versionW σ₂, E g σ₁ w versionW σ₂ ∧
      Follows s P E ((f'.observe versionW).push w) σ₂ v version σ' := by
  constructor
  · intro hf
    cases hf with
    | done h' ok => exact (busy_ne_handDown (r := [f']) (h 0) (h' 0)).elim
    | move h' onwards =>
      have := (busy_inj ((h 0 []).symm.trans (h' 0 []))).1
      simp at this
    | nest h' inner onwards =>
      obtain ⟨hf, rfl⟩ := busy_inj ((h 0 []).symm.trans (h' 0 []))
      simp only [List.cons.injEq, and_true] at hf
      obtain ⟨rfl, rfl⟩ := hf
      exact ⟨_, _, _, inner, onwards⟩
  · rintro ⟨w, versionW, σ₂, inner, onwards⟩
    exact .nest h inner onwards

theorem follows_done {w : Value} {versionW : Option Nat} {σ₁ : State}
    (h : ∀ n rest, (busy n (f :: rest) σ).advance s = (busy (n + 1) rest σ₁).handDown versionW w) :
    Follows s P E f σ v version σ' ↔ P f.node w ∧ v = w ∧ version = versionW ∧ σ' = σ₁ := by
  constructor
  · intro hf
    cases hf with
    | done h' ok =>
      obtain ⟨rfl, rfl, rfl⟩ := handDown_inj fun rest => (h' 0 rest).symm.trans (h 0 rest)
      exact ⟨ok, rfl, rfl, rfl⟩
    | move h' onwards => exact (busy_ne_handDown (r := []) (h' 0) (h 0)).elim
    | nest h' inner onwards => exact (busy_ne_handDown (r := [_]) (h' 0) (h 0)).elim
  · rintro ⟨ok, rfl, rfl, rfl⟩
    exact .done h ok

/-- A frame that breaks the machine comes to no end. -/
theorem not_follows_of_broken {fault : Fault}
    (h : ∀ n rest, ((busy n (f :: rest) σ).advance s).status = .broken fault) :
    ¬ Follows s P E f σ v version σ' := by
  intro hf
  have h := h 0 []
  cases hf with
  | done h' ok =>
    rw [h', handDown_nil] at h
    cases h
  | move h' onwards =>
    rw [h'] at h
    cases h
  | nest h' inner onwards =>
    rw [h'] at h
    cases h

/-- A frame comes to one end. -/
theorem Runs.unique {Q : NodeId → Value → Prop} {k : Nat} {u : Value} {versionU : Option Nat}
    {τ : State} (h : Runs s P k f σ v version σ') (h' : Completes s Q f σ u versionU τ) :
    u = v ∧ versionU = version ∧ τ = σ' := by
  induction h generalizing u versionU τ with
  | done h _ => exact ((follows_done h).1 (completes_iff.1 h')).2
  | move h _ ih => exact ih (completes_iff.2 ((follows_move h).1 (completes_iff.1 h')))
  | nest h _ _ ihInner ihOnwards =>
    obtain ⟨w, versionW, σ₂, inner, onwards⟩ := (follows_nest h).1 (completes_iff.1 h')
    obtain ⟨rfl, rfl, rfl⟩ := ihInner inner
    exact ihOnwards (completes_iff.2 onwards)

end Unfolding

/-! ### Adequacy -/

theorem tick_eq (s : Setting) (n : Nat) (frames : List Frame) (σ : State) :
    (busy n frames σ).tick s false =
      if s.budget ≤ n then (busy n frames σ).cutOff .budgetExceeded
      else (busy n frames σ).advance s := rfl

theorem tick_busy {n : Nat} {l : List Frame} (h : n < s.budget) :
    (busy n l σ).tick s false = (busy n l σ).advance s := by
  rw [tick_eq, if_neg (Nat.not_le.2 h)]

theorem tick_spent {n : Nat} {l : List Frame} (h : s.budget ≤ n) :
    (busy n l σ).tick s false = (busy n l σ).cutOff .budgetExceeded := by
  rw [tick_eq, if_pos h]

theorem status_of_terminal? {m : Machine} {T : Terminal} (h : m.terminal? = some T) :
    m.status = .ended T := by
  unfold terminal? at h
  cases hs : m.status with
  | ended U =>
    rw [hs] at h
    rw [Option.some.inj h]
  | running => simp [hs] at h
  | broken f => simp [hs] at h

/-- What has broken a machine. -/
def fault? (m : Machine) : Option Fault :=
  match m.status with
  | .broken fault => some fault
  | _ => none

theorem status_of_fault? {m : Machine} {fault : Fault} (h : m.fault? = some fault) :
    m.status = .broken fault := by
  unfold fault? at h
  split at h
  · cases h
    assumption
  · cases h

/-- The value that a machine has ended with. -/
def endValue? (m : Machine) : Option Value := m.terminal?.bind Terminal.value?

theorem endValue?_of_isRunning {m : Machine} (h : m.isRunning = true) :
    m.endValue? = none := by
  unfold isRunning at h
  unfold endValue? terminal?
  cases hs : m.status with
  | running => rfl
  | ended T => simp [hs] at h
  | broken fault => rfl

theorem status_of_endValue? {m : Machine} {v : Value} (h : m.endValue? = some v) :
    ∃ T, m.status = .ended T ∧ T.value? = some v := by
  obtain ⟨T, hT, hv⟩ := Option.bind_eq_some_iff.1 h
  exact ⟨T, status_of_terminal? hT, hv⟩

/-- A machine that has ended with a value has run its topmost frame to the end. -/
theorem runs_of_run {P : NodeId → Value → Prop} {w : Value} (k n : Nat) (f : Frame)
    (rest : List Frame) (σ : State)
    (hP : ∀ j < k, ∀ i v, ((busy n (f :: rest) σ).run s false j).completing? s = some (i, v) →
      P i v)
    (hw : ((busy n (f :: rest) σ).run s false k).endValue? = some w) :
    ∃ j l v version σ', k = j + l ∧ Runs s P j f σ v version σ' ∧
      (busy n (f :: rest) σ).run s false j = (busy (n + j) rest σ').handDown version v := by
  induction k using Nat.strongRecOn generalizing n f rest σ with
  | ind k ih =>
    cases k with
    | zero => simp [busy, endValue?, terminal?] at hw
    | succ k =>
      by_cases hb : s.budget ≤ n
      · rw [run_succ, tick_spent hb, run_of_ended rfl] at hw
        simp [cutOff, endValue?, terminal?, Terminal.value?] at hw
      have tick := tick_busy (σ := σ) (l := f :: rest) (Nat.lt_of_not_le hb)
      have step (j : Nat) : (busy n (f :: rest) σ).run s false (j + 1) =
          ((busy n (f :: rest) σ).advance s).run s false j := by rw [run_succ, tick]
      have hP' (j : Nat) (hj : j < k) (i : NodeId) (v : Value)
          (h : (((busy n (f :: rest) σ).advance s).run s false j).completing? s = some (i, v)) :
          P i v := hP (j + 1) (by omega) i v (by rw [step, h])
      rw [step] at hw
      rcases outcome s f σ with ⟨f', σ₁, h⟩ | ⟨g, f', σ₁, h⟩ | ⟨v, version, σ', h, hv⟩ | ⟨fault, h⟩
      · rw [h] at hw hP'
        obtain ⟨j, l, v, version, σ', hk, hr, he⟩ := ih k (by omega) (n + 1) f' rest σ₁ hP' hw
        refine ⟨j + 1, l, v, version, σ', by omega, .move h hr, ?_⟩
        rw [step, h, he, Nat.add_assoc, Nat.add_comm 1 j]
      · rw [h] at hw hP'
        obtain ⟨j, l, u, versionU, σ₂, hk, hr, he⟩ :=
          ih k (by omega) (n + 1) g (f' :: rest) σ₁ hP' hw
        rw [hk, run_add, he, handDown_cons] at hw
        have hP'' (j' : Nat) (hj : j' < l) (i : NodeId) (v : Value)
            (h' : ((busy (n + 1 + j) ((f'.observe versionU).push u :: rest) σ₂).run s false
              j').completing? s = some (i, v)) : P i v :=
          hP' (j + j') (by omega) i v (by rw [run_add, he, handDown_cons, h'])
        obtain ⟨j', l', v, version, σ', hk', hr', he'⟩ :=
          ih l (by omega) (n + 1 + j) _ rest σ₂ hP'' hw
        refine ⟨j + j' + 1, l', v, version, σ', by omega, .nest h hr hr', ?_⟩
        have hn : n + 1 + j + j' = n + (j + j' + 1) := by omega
        rw [step, h, run_add, he, handDown_cons, he', hn]
      · have ok := hP 0 (by omega) f.node v
          ((completing?_busy (Nat.lt_of_not_le hb) _).trans (hv n rest))
        exact ⟨1, k, v, version, σ', by omega, .done h ok, by rw [step, run_zero, h]⟩
      · have hs : ((busy n (f :: rest) σ).advance s).isRunning = false := by
          rw [isRunning, h]
        rw [run_of_ended hs, endValue?, terminal?, h] at hw
        cases hw

/-- What the relation says, the machine does, if the budget is large enough. -/
theorem run_of_runs {P : NodeId → Value → Prop} {k : Nat} {f : Frame} {σ σ' : State} {v : Value}
    {version : Option Nat} (h : Runs s P k f σ v version σ') (n : Nat) (hb : n + k ≤ s.budget)
    (rest : List Frame) :
    (busy n (f :: rest) σ).run s false k = (busy (n + k) rest σ').handDown version v := by
  induction h generalizing n rest with
  | done h ok => rw [run_succ, tick_busy (by omega), h, run_zero]
  | move h onwards ih =>
    rw [run_succ, tick_busy (by omega), h, ih (n + 1) (by omega), Nat.add_assoc,
      Nat.add_comm 1]
  | @nest j k f f' g σ σ₁ σ₂ w versionW v version σ' h inner onwards ihInner ihOnwards =>
    have hn : n + 1 + j + k = n + (j + k + 1) := by omega
    rw [run_succ, tick_busy (by omega), h, run_add, ihInner (n + 1) (by omega), handDown_cons,
      ihOnwards (n + 1 + j) (by omega), hn]

end Machine
end StreamLang
