import StreamLang.Proofs.Machine.Heights
/-!
No program breaks the machine. As long as every function that a pass can come by has its scope among
those there are, each step finds what it needs: the running frame stands at a step and has as many values
as the height of that place, and each frame below it waits for one more. There is one exception, the
function of another tree, whose body may lie outside of this one.
-/
namespace StreamLang

/-- The body of the function lies in the tree, and its scope is one of the first `n`. -/
def Closure.Lives (t : Tree) (n : Nat) (c : Closure) : Prop := c.body < t.size ∧ c.scope < n

theorem Closure.Lives.mono {t : Tree} {n n' : Nat} {c : Closure} (h : c.Lives t n) (hn : n ≤ n') :
    c.Lives t n' := ⟨h.1, Nat.lt_of_lt_of_le h.2 hn⟩

/-- The body of the function is one of these, and its scope is one of the first `n`. -/
def Closure.Among (B : NodeId → Prop) (n : Nat) (c : Closure) : Prop := B c.body ∧ c.scope < n

theorem Closure.Among.mono {B : NodeId → Prop} {n n' : Nat} {c : Closure} (h : c.Among B n)
    (hn : n ≤ n') : c.Among B n' := ⟨h.1, Nat.lt_of_lt_of_le h.2 hn⟩

/-- What a pass runs against, with so many scopes, provides it no other bodies to run than these. -/
structure Setting.Provides (s : Setting) (B : NodeId → Prop) (n : Nat) : Prop where
  root : B s.root
  globals : s.globals < n
  cache : ∀ i e, s.cache.find? i = some e → e.value.Every (Closure.Among B n)
  snapshot : ∀ stream e, s.snapshot.get? stream = some e → e.value.Every (Closure.Among B n)

theorem Setting.Provides.mono {s : Setting} {B : NodeId → Prop} {n n' : Nat} (h : s.Provides B n)
    (hn : n ≤ n') : s.Provides B n' where
  root := h.root
  globals := Nat.lt_of_lt_of_le h.globals hn
  cache i e he := (h.cache i e he).mono fun _ hc => hc.mono hn
  snapshot stream e he := (h.snapshot stream e he).mono fun _ hc => hc.mono hn

/-- What a pass runs against, with so many scopes, holds functions of its own tree only. -/
structure Setting.Alive (s : Setting) (n : Nat) : Prop where
  root : s.root < s.program.tree.size
  globals : s.globals < n
  cache : ∀ i e, s.cache.find? i = some e → e.value.Every (Closure.Lives s.program.tree n)
  snapshot : ∀ stream e, s.snapshot.get? stream = some e →
    e.value.Every (Closure.Lives s.program.tree n)

theorem Setting.Alive.provides {s : Setting} {n : Nat} (h : s.Alive n) :
    s.Provides (· < s.program.tree.size) n := ⟨h.root, h.globals, h.cache, h.snapshot⟩

/-- A frame stands at one of its steps, at a place of height `k`. -/
structure Frame.Stands (t : Tree) (B : NodeId → Prop) (n : Nat) (f : Frame) (k : Nat) : Prop where
  heights : ∃ h, Heights t f.node f.steps h ∧ f.cursor < f.steps.length ∧ h f.cursor = k
  scope : f.scope < n
  values : ∀ v ∈ f.values, v.Every (Closure.Among B n)

/-- Frames that each wait for one more value. -/
def Waiting (t : Tree) (B : NodeId → Prop) (n : Nat) (frames : List Frame) : Prop :=
  ∀ f ∈ frames, f.Stands t B n (f.values.length + 1)

namespace Frame.Stands

variable {t : Tree} {B : NodeId → Prop} {n n' k : Nat} {f g : Frame} {a : Step}

theorem mono (h : f.Stands t B n k) (hn : n ≤ n') : f.Stands t B n' k :=
  ⟨h.heights, Nat.lt_of_lt_of_le h.scope hn, fun v hv => (h.values v hv).mono fun _ hc => hc.mono hn⟩

theorem start (o : t.Ordered) {i : NodeId} (hi : i < t.size) {x : ScopeId} (hx : x < n) :
    (Frame.start i (t.steps i) x).Stands t B n 0 := by
  obtain ⟨h, hh⟩ := o.heights hi
  exact ⟨⟨h, hh, hh.nonempty, hh.start⟩, hx, fun v hv => absurd hv List.not_mem_nil⟩

theorem exists_step (h : f.Stands t B n k) : ∃ a, f.steps[f.cursor]? = some a := by
  obtain ⟨-, -, hc, -⟩ := h.heights
  exact ⟨_, List.getElem?_eq_getElem hc⟩

theorem ready (h : f.Stands t B n k) (ha : f.steps[f.cursor]? = some a) : a.Ready t f.node k := by
  obtain ⟨_, hh, -, rfl⟩ := h.heights
  exact hh.ready _ _ ha

/-- A step leads to another place of its height. -/
theorem goes (h : f.Stands t B n k) (ha : f.steps[f.cursor]? = some a) {q k' : Nat}
    (hq : (q, k') ∈ a.leads f.cursor k f.steps.length) (hnode : g.node = f.node)
    (hsteps : g.steps = f.steps) (hcursor : g.cursor = q) (hscope : g.scope < n)
    (hvalues : ∀ v ∈ g.values, v.Every (Closure.Among B n)) : g.Stands t B n k' := by
  obtain ⟨_, hh, -, rfl⟩ := h.heights
  obtain ⟨hlt, rfl⟩ := hh.leads _ _ ha _ _ hq
  exact ⟨⟨_, hnode ▸ hsteps ▸ hh, by rw [hcursor, hsteps]; exact hlt, by rw [hcursor]⟩, hscope,
    hvalues⟩

end Frame.Stands

theorem Waiting.mono {t : Tree} {B : NodeId → Prop} {n n' : Nat} {frames : List Frame}
    (h : Waiting t B n frames) (hn : n ≤ n') : Waiting t B n' frames := fun f hf => (h f hf).mono hn

/-- The lowest frame is that of the root, so every other one stands on the frame that called it. -/
def Rooted (root : NodeId) (frames : List Frame) : Prop :=
  ∀ f, frames.getLast? = some f → f.node = root

namespace Rooted

variable {root : NodeId} {f g : Frame} {rest : List Frame}

theorem tail (h : Rooted root (f :: rest)) : Rooted root rest := by
  intro k hk
  refine h k ?_
  rw [List.getLast?_cons, hk]
  rfl

theorem replace (h : Rooted root (f :: rest)) (hg : g.node = f.node) : Rooted root (g :: rest) := by
  intro k hk
  rw [List.getLast?_cons] at hk
  cases hr : rest.getLast? with
  | none =>
    rw [hr] at hk
    obtain rfl := Option.some.inj hk
    exact hg.trans (h f (by rw [List.getLast?_cons, hr]; rfl))
  | some l =>
    rw [hr] at hk
    exact h k (by rw [List.getLast?_cons, hr]; exact hk)

theorem push (h : Rooted root (f :: rest)) : Rooted root (g :: f :: rest) := by
  intro k hk
  rw [List.getLast?_cons_cons] at hk
  exact h k hk

end Rooted

namespace Machine

/-- The machine provides no other bodies to run than these, and nothing but the lookup of one of them
outside of the tree has broken it. -/
structure Intact (s : Setting) (B : NodeId → Prop) (m : Machine) : Prop where
  provides : s.Provides B m.scopes.all.size
  scopes : m.scopes.Every (Closure.Among B m.scopes.all.size)
  faults : ∀ fault, m.status = .broken fault →
    ∃ i, B i ∧ s.program.tree.size ≤ i ∧ fault = .outside i s.program.tree.size

/-- If such a machine is running, it can take a step. -/
structure Poised (s : Setting) (B : NodeId → Prop) (m : Machine) : Prop extends Intact s B m where
  stack : m.isRunning = true → m.started = true → ∃ f rest, m.frames = f :: rest ∧
    f.Stands s.program.tree B m.scopes.all.size f.values.length ∧
    Waiting s.program.tree B m.scopes.all.size rest ∧ Rooted s.root (f :: rest)
  fresh : m.isRunning = true → m.started = false → m.frames = []

variable {s : Setting} {B : NodeId → Prop} {m : Machine} {f g : Frame} {rest : List Frame} {a : Step}

/-- No other functions lie in the value than those that may be called. -/
abbrev Callable (B : NodeId → Prop) (m : Machine) : Value → Prop :=
  Value.Every (Closure.Among B m.scopes.all.size)

namespace Intact

theorem of_eq {m' : Machine} (h : m.Intact s B) (hs : m'.scopes = m.scopes)
    (hstatus : m'.status = m.status) : m'.Intact s B :=
  ⟨hs ▸ h.provides, hs ▸ h.scopes, hstatus ▸ h.faults⟩

variable (h : m.Intact s B)
include h

theorem openScope (p : ScopeId) : (m.openScope p).2.Intact s B := by
  have hn : m.scopes.all.size ≤ (m.scopes.addChild p).2.all.size := by
    rw [Scopes.size_addChild]
    exact Nat.le_succ _
  exact ⟨h.provides.mono hn, (h.scopes.addChild p).mono fun _ hc => hc.mono hn, h.faults⟩

theorem define (x : ScopeId) (bindings : List (String × Value))
    (hb : ∀ b ∈ bindings, m.Callable B b.2) : (m.define x bindings).Intact s B := by
  have hn : (m.scopes.defineAll x bindings).all.size = m.scopes.all.size :=
    Scopes.size_defineAll _ _ _
  refine ⟨?_, ?_, h.faults⟩
  · exact hn.symm ▸ h.provides
  · have := h.scopes.defineAll x hb
    exact hn.symm ▸ this

theorem put (hs : m.started = true)
    (hf : f.Stands s.program.tree B m.scopes.all.size f.values.length)
    (hw : Waiting s.program.tree B m.scopes.all.size rest) (hr : Rooted s.root (f :: rest)) :
    (m.put f rest).Poised s B :=
  ⟨h.of_eq rfl rfl, fun _ _ => ⟨f, rest, rfl, hf, hw, hr⟩, fun _ hn => by
    have hn : m.started = false := hn
    rw [hs] at hn
    cases hn⟩

theorem handDown (hs : m.started = true)
    (hw : Waiting s.program.tree B m.scopes.all.size m.frames) (hr : Rooted s.root m.frames)
    {v : Value} (hv : m.Callable B v) (version : Option Nat) : (m.handDown version v).Poised s B := by
  unfold Machine.handDown
  split
  · refine ⟨⟨h.provides, h.scopes, fun fault hb => by cases hb⟩, fun hr => ?_, fun hr => ?_⟩ <;>
      cases hr
  · rename_i f rest hm
    rw [hm] at hw hr
    have hf := hw f List.mem_cons_self
    refine h.put hs ⟨hf.heights, hf.scope, ?_⟩ (fun g hg => hw g (List.mem_cons_of_mem _ hg))
      (hr.replace rfl)
    intro u hu
    rcases List.mem_cons.1 hu with rfl | hu
    · exact hv
    · exact hf.values u hu

theorem crash {i : NodeId} (hi : B i) (outside : s.program.tree.size ≤ i) :
    (m.fail (.outside i s.program.tree.size)).Poised s B where
  provides := h.provides
  scopes := h.scopes
  faults _ hf := ⟨i, hi, outside, by cases hf; rfl⟩
  stack hr := by cases hr
  fresh hr := by cases hr

theorem call (o : s.program.tree.Ordered) (hs : m.started = true)
    (hw : Waiting s.program.tree B m.scopes.all.size m.frames) {i : NodeId} (hi : B i) {x : ScopeId} (hx : x < m.scopes.all.size)
    (hr : Rooted s.root (.start i (s.program.tree.steps i) x :: m.frames)) :
    (m.call s i x).Poised s B := by
  rcases Nat.lt_or_ge i s.program.tree.size with inside | outside
  · have hcount : (m.setRecord (m.record.countEvaluation i)).Intact s B := h.of_eq rfl rfl
    rw [call_of_lt inside]
    exact hcount.put hs (Frame.Stands.start o inside hx) hw hr
  · rw [call_of_outside outside]
    exact h.crash hi outside

theorem enter (o : s.program.tree.Ordered) (hs : m.started = true)
    (hw : Waiting s.program.tree B m.scopes.all.size m.frames) {i : NodeId} (hi : B i)
    {x : ScopeId} (hx : x < m.scopes.all.size)
    (hr : Rooted s.root (.start i (s.program.tree.steps i) x :: m.frames)) :
    (m.enter s i x).Poised s B := by
  unfold Machine.enter
  split
  · rename_i v hreused
    have hreuse : (m.setRecord (s.noteReuse m.record i)).Intact s B := h.of_eq rfl rfl
    refine hreuse.handDown hs hw hr.tail ?_ none
    obtain ⟨e, he, rfl⟩ : ∃ e, s.cache.find? i = some e ∧ e.value = v := by
      unfold Setting.reuse? at hreused
      split at hreused
      · cases hreused
      split at hreused
      · unfold Cache.reusable? at hreused
        split at hreused
        · rename_i e he
          split at hreused
          · exact ⟨e, he, Option.some.inj hreused⟩
          · cases hreused
        · cases hreused
      · cases hreused
    exact h.provides.cache i e he
  · exact h.call o hs hw hi hx hr

end Intact

/-! ### One step -/

section Step

variable (o : s.program.tree.Ordered) (hB : ∀ i < s.program.tree.size, B i) (h : m.Intact s B) (hs : m.started = true)
  (hf : f.Stands s.program.tree B m.scopes.all.size f.values.length)
  (hw : Waiting s.program.tree B m.scopes.all.size rest) (hr : Rooted s.root (f :: rest))
include h hs hf hw hr

/-- A step that goes on with its frame. -/
theorem poised_of_goes (ha : f.steps[f.cursor]? = some a)
    (hg : (g.cursor, g.values.length) ∈ a.leads f.cursor f.values.length f.steps.length)
    (hnode : g.node = f.node) (hsteps : g.steps = f.steps) (hscope : g.scope = f.scope)
    (hvalues : ∀ v ∈ g.values, m.Callable B v) : (m.put g rest).Poised s B :=
  h.put hs (hf.goes ha hg hnode hsteps rfl (hscope ▸ hf.scope) hvalues) hw (hr.replace hnode)

include o in
theorem poised_applyCallee (target : Value) (values arguments : List Value)
    (ha : f.steps[f.cursor]? = some (.apply (.call arguments.length)))
    (hl : f.values.length = values.length + arguments.length + 1)
    (htarget : m.Callable B target) (hvalues : ∀ v ∈ values, m.Callable B v)
    (harguments : ∀ v ∈ arguments, m.Callable B v) :
    (m.applyCallee s { f with cursor := f.cursor + 1, values } rest target arguments).Poised s B := by
  have hk : f.values.length - (arguments.length + 1) + 1 = values.length + 1 := by omega
  have hq : (f.cursor + 1, values.length + 1) ∈
      (Step.apply (.call arguments.length)).leads f.cursor f.values.length f.steps.length := by
    simp [Step.leads, Operation.takes, hk]
  have go {v : Value} (hv : m.Callable B v) :
      (m.put ({ f with cursor := f.cursor + 1, values }.push v) rest).Poised s B :=
    poised_of_goes h hs hf hw hr ha hq rfl rfl rfl fun u hu => by
      rcases List.mem_cons.1 hu with rfl | hu
      · exact hv
      · exact hvalues u hu
  unfold applyCallee
  split
  · rename_i v hc
    refine go ?_
    unfold callee at hc
    split at hc
    · split at hc
      · cases hc
      · cases hc
        exact Value.every_failure _ _ _
    · cases hc
      exact Value.every_exception _
    · cases hc
      exact Value.every_failure _ _ _
  · rename_i c hc
    have hc : c.Among B m.scopes.all.size := by
      unfold callee at hc
      split at hc
      · split at hc
        · cases hc
          exact Value.every_function.1 htarget
        · cases hc
      · cases hc
      · cases hc
    rw [if_neg (Nat.not_le.2 hc.2)]
    have hn : m.scopes.all.size ≤ (m.scopes.addChild c.scope).2.all.size := by
      rw [Scopes.size_addChild]
      exact Nat.le_succ _
    have hd : ((m.scopes.addChild c.scope).2.defineAll (m.scopes.addChild c.scope).1
        (c.parameters.zip arguments)).all.size = (m.scopes.addChild c.scope).2.all.size :=
      Scopes.size_defineAll _ _ _
    have hbody : Waiting s.program.tree B m.scopes.all.size
        ({ f with cursor := f.cursor + 1, values } :: rest) := by
      intro g hg
      rcases List.mem_cons.1 hg with rfl | hg
      · exact hf.goes ha hq rfl rfl rfl hf.scope hvalues
      · exact hw g hg
    have hopen := ((h.of_eq rfl rfl : (m.put { f with cursor := f.cursor + 1, values } rest).Intact
      s B).openScope c.scope).define (m.scopes.addChild c.scope).1
      (c.parameters.zip arguments) fun b hb =>
        (harguments b.2 (List.of_mem_zip hb).2).mono fun _ hc => hc.mono hn
    have hcaller : Rooted s.root ({ f with cursor := f.cursor + 1, values } :: rest) :=
      hr.replace rfl
    refine hopen.call o hs ?_ hc.1 ?_ hcaller.push
    · exact hd.symm ▸ hbody.mono hn
    · have : m.scopes.all.size < (m.scopes.addChild c.scope).2.all.size := by
        rw [Scopes.size_addChild]
        exact Nat.lt_succ_self _
      exact hd.symm ▸ this

include o hB in
theorem poised_apply {op : Operation} (ha : f.steps[f.cursor]? = some (.apply op)) :
    (m.apply s { f with cursor := f.cursor + 1 } rest op).Poised s B := by
  obtain ⟨hk, hbody⟩ := hf.ready ha
  have hvalues := hf.values
  -- an operation that takes values from the top and leaves one
  have go (values : List Value) {v : Value} (hl : f.values.length = values.length + op.takes)
      (hsub : ∀ u ∈ values, u ∈ f.values) (hv : m.Callable B v) :
      (m.put ({ f with cursor := f.cursor + 1, values }.push v) rest).Poised s B := by
    refine poised_of_goes h hs hf hw hr ha ?_ rfl rfl rfl fun u hu => ?_
    · simp [Step.leads, Frame.push, hl]
    · rcases List.mem_cons.1 hu with rfl | hu
      · exact hv
      · exact hvalues u (hsub u hu)
  have leave {v : Value} (hl : op.takes = 0) (hv : m.Callable B v) :
      (m.put ({ f with cursor := f.cursor + 1 }.push v) rest).Poised s B :=
    go f.values (by rw [hl, Nat.add_zero]) (fun _ hu => hu) hv
  have last {count : Nat} {u : Value} (hu : u ∈ Frame.lastValues f count) : m.Callable B u :=
    hvalues u (List.mem_of_mem_take (List.mem_reverse.1 hu))
  cases op with
  | binary operator =>
    rcases hv : f.values with _ | ⟨right, _ | ⟨left, values⟩⟩
    · simp [hv, Operation.takes] at hk
    · simp [hv, Operation.takes] at hk
    · simp only [apply]
      exact go values (by simp [hv, Operation.takes]) (fun u hu => by simp [hv, hu])
        (Value.every_binary _ _ _ _)
  | unary operator =>
    cases hv : f.values with
    | nil => simp [hv, Operation.takes] at hk
    | cons operand values =>
      simp only [apply]
      exact go values (by simp [hv, Operation.takes]) (fun u hu => by simp [hv, hu])
        (Value.every_unary _ _ _)
  | property name =>
    cases hv : f.values with
    | nil => simp [hv, Operation.takes] at hk
    | cons subject values =>
      simp only [apply]
      exact go values (by simp [hv, Operation.takes]) (fun u hu => by simp [hv, hu])
        ((hvalues subject (by simp [hv])).property _ _)
  | lookup name =>
    refine leave rfl ?_
    cases hl : m.scopes.lookup f.scope name with
    | none => exact Value.every_failure _ _ _
    | some v => exact h.scopes.lookup hl
  | makeList count =>
    have hk : count ≤ f.values.length := hk
    simp only [apply, if_neg (Nat.not_lt.2 hk)]
    refine go (f.values.drop count) ?_ (fun _ hu => List.mem_of_mem_drop hu) ?_
    · simp [Operation.takes, Nat.sub_add_cancel hk]
    · exact Value.every_list.2 fun u hu => last hu
  | makeStruct names =>
    have hk : names.length ≤ f.values.length := hk
    simp only [apply, if_neg (Nat.not_lt.2 hk)]
    refine go (f.values.drop names.length) ?_ (fun _ hu => List.mem_of_mem_drop hu) ?_
    · simp [Operation.takes, Nat.sub_add_cancel hk]
    · exact Value.every_struct_ofList fun u hu => last hu
  | makeFunction function body parameters =>
    exact leave rfl (Value.every_function.2 ⟨hB _ (hbody _ _ _ rfl), hf.scope⟩)
  | call count =>
    have hk : count + 1 ≤ f.values.length := hk
    have hlt : ¬ f.values.length < count := by omega
    have hlen : (f.values.drop count).length = f.values.length - count := List.length_drop
    simp only [apply, if_neg hlt]
    cases hv : f.values.drop count with
    | nil =>
      rw [hv, List.length_nil] at hlen
      omega
    | cons target values =>
      have hmem {u : Value} (hu : u ∈ target :: values) : u ∈ f.values :=
        List.mem_of_mem_drop (hv ▸ hu)
      have hcount : (Frame.lastValues f count).length = count := by
        simp [Frame.lastValues]
        omega
      rw [hv, List.length_cons] at hlen
      refine poised_applyCallee o h hs hf hw hr target values (Frame.lastValues f count) (by rw [hcount]; exact ha) (by omega)
        (hvalues _ (hmem List.mem_cons_self))
        (fun u hu => hvalues u (hmem (List.mem_cons_of_mem _ hu))) fun u hu => last hu
  | previous reaction =>
    refine leave rfl ?_
    cases hc : s.cache.find? reaction with
    | none =>
      simp only [Cache.value?, hc, Option.map_none, Option.getD_none]
      exact Value.every_failure _ _ _
    | some e =>
      simp only [Cache.value?, hc, Option.map_some, Option.getD_some]
      exact h.provides.cache reaction e hc
  | fail kind message => exact leave rfl (Value.every_failure _ _ _)

omit hs hf hw hr in
theorem callable_fetch (r : Record) (i : NodeId) (stream : String) (mode : FetchMode) :
    m.Callable B (fetch s r i stream mode).1 := by
  unfold fetch
  split
  · exact Value.every_failure _ _ _
  · rename_i e he
    split
    · exact Value.every_boolean _
    · simp only
      split
      · split
        · exact h.provides.snapshot stream e he
        · exact Value.every_failure _ _ _
      · exact h.provides.snapshot stream e he

include o hB in
/-- Whatever step a poised machine is at, it takes. -/
theorem poised_execute (ha : f.steps[f.cursor]? = some a) :
    (m.execute s { f with cursor := f.cursor + 1 } rest a).Poised s B := by
  have hready := hf.ready ha
  have hvalues := hf.values
  have go {g : Frame}
      (hg : (g.cursor, g.values.length) ∈ a.leads f.cursor f.values.length f.steps.length)
      (hnode : g.node = f.node) (hsteps : g.steps = f.steps) (hscope : g.scope = f.scope)
      (hg' : ∀ v ∈ g.values, m.Callable B v) : (m.put g rest).Poised s B :=
    poised_of_goes h hs hf hw hr ha hg hnode hsteps hscope hg'
  have push {v : Value} (hv : m.Callable B v) : ∀ u ∈ v :: f.values, m.Callable B u := by
    intro u hu
    rcases List.mem_cons.1 hu with rfl | hu
    · exact hv
    · exact hvalues u hu
  cases a with
  | push v =>
    exact go (by simp [Step.leads, Frame.push]) rfl rfl rfl
      (push (hready.mono fun _ => False.elim))
  | evaluate index =>
    have hc := List.getElem?_eq_getElem hready
    have hmem := List.getElem_mem hready
    have hput : (m.put { f with cursor := f.cursor + 1 } rest).Intact s B := h.of_eq rfl rfl
    have hparent : Rooted s.root ({ f with cursor := f.cursor + 1 } :: rest) := hr.replace rfl
    simp only [execute, hc]
    refine hput.enter o hs (fun g hg => ?_)
      (hB _ (o.child_lt_size hmem)) hf.scope hparent.push
    rcases List.mem_cons.1 hg with rfl | hg
    · exact hf.goes ha (by simp [Step.leads]) rfl rfl rfl hf.scope hvalues
    · exact hw g hg
  | apply op => exact poised_apply o hB h hs hf hw hr ha
  | fetch stream mode =>
    have hrecord : (m.setRecord (fetch s m.record f.node stream mode).2.2).Intact s B :=
      h.of_eq rfl rfl
    refine hrecord.put hs (hf.goes ha (List.mem_singleton.2 rfl) rfl rfl rfl hf.scope ?_) hw
      (hr.replace rfl)
    exact push (callable_fetch h _ _ _ _)
  | define name =>
    obtain ⟨i, steps, cursor, _ | ⟨v, values⟩, x, version⟩ := f
    · exact absurd hready (Nat.lt_irrefl 0)
    have hd := h.define x [(name, v)] fun b hb => by
      rw [List.mem_singleton.1 hb]
      exact hvalues v List.mem_cons_self
    have hn : (m.define x [(name, v)]).scopes.all.size = m.scopes.all.size :=
      Scopes.size_defineAll _ _ _
    refine hd.put hs (f := ⟨i, steps, cursor + 1, v :: values, x, version⟩) ?_ (hn.symm ▸ hw)
      (hr.replace rfl)
    exact hn.symm ▸ hf.goes ha (List.mem_singleton.2 rfl) rfl rfl rfl hf.scope hvalues
  | discard =>
    cases hv : f.values with
    | nil => simp [Step.Ready, hv] at hready
    | cons v values =>
      simp only [execute]
      exact go (by simp [Step.leads, hv]) rfl rfl rfl fun u hu => hvalues u (by simp [hv, hu])
  | enterScope =>
    have hn : (m.openScope f.scope).2.scopes.all.size = m.scopes.all.size + 1 :=
      Scopes.size_addChild _ _
    have hle : m.scopes.all.size ≤ (m.openScope f.scope).2.scopes.all.size := by omega
    refine (h.openScope f.scope).put hs (hf.mono hle |>.goes ha (List.mem_singleton.2 rfl) rfl rfl rfl ?_
      (hf.mono hle).values) (hw.mono hle) (hr.replace rfl)
    exact hn.symm ▸ Nat.lt_succ_self m.scopes.all.size
  | jump target => exact go (by simp [Step.leads, Frame.jump]) rfl rfl rfl hvalues
  | jumpIfFalse target =>
    cases hv : f.values with
    | nil => simp [Step.Ready, hv] at hready
    | cons v values =>
      have hmem {u : Value} (hu : u ∈ v :: values) : m.Callable B u := hvalues u (hv ▸ hu)
      have refuse {w : Value} (hw : m.Callable B w) : (m.put
          ({ f with cursor := f.cursor + 1, values }.completeWith w) rest).Poised s B :=
        go (by simp [Step.leads, Frame.completeWith]) rfl rfl rfl fun u hu => by
          rw [List.mem_singleton.1 hu]
          exact hw
      simp only [execute]
      unfold branch
      split
      · exact go (by simp [Step.leads, hv]) rfl rfl rfl
          fun u hu => hmem (List.mem_cons_of_mem _ hu)
      · exact go (by simp [Step.leads, Frame.jump, hv]) rfl rfl rfl
          fun u hu => hmem (List.mem_cons_of_mem _ hu)
      · exact refuse (Value.every_exception _)
      · exact refuse (Value.every_failure _ _ _)
  | jumpIfInitialized target =>
    simp only [execute]
    split
    · exact go (by simp [Step.leads, Frame.jump]) rfl rfl rfl hvalues
    · exact go (by simp [Step.leads]) rfl rfl rfl hvalues
  | finish =>
    obtain ⟨i, steps, cursor, _ | ⟨v, values⟩, x, version⟩ := f
    · exact absurd hready (Nat.lt_irrefl 0)
    let record := s.noteFinish m.record ⟨i, steps, cursor + 1, v :: values, x, version⟩ v
    have hrest : { m with frames := rest, record }.Intact s B := h.of_eq rfl rfl
    exact hrest.handDown hs hw hr.tail (hvalues v List.mem_cons_self) _

end Step

namespace Poised

variable (o : s.program.tree.Ordered) (hB : ∀ i < s.program.tree.size, B i)
include o hB

theorem step (h : m.Poised s B) (hr : m.isRunning = true) (hs : m.started = true) :
    (m.step s).Poised s B := by
  obtain ⟨f, rest, hm, hf, hw, hroot⟩ := h.stack hr hs
  obtain ⟨a, ha⟩ := hf.exists_step
  unfold Machine.step
  rw [hm]
  simp only [ha]
  exact poised_execute o hB h.toIntact hs hf hw hroot ha

omit o hB in
theorem cutOff (h : m.Poised s B) (T : Terminal) : (m.cutOff T).Poised s B where
  provides := h.provides
  scopes := h.scopes
  faults fault hb := by cases hb
  stack hr := by cases hr
  fresh hr := by cases hr

omit hB in
theorem enterRoot (h : m.Poised s B) (hr : m.isRunning = true) (hs : m.started = false) :
    (m.enterRoot s).Poised s B := by
  have hf : m.frames = [] := h.fresh hr hs
  have hopen := h.toIntact.openScope s.globals
  let m' : Machine := { (m.openScope s.globals).2 with started := true }
  have hopened : m'.Intact s B := hopen.of_eq rfl rfl
  have hframes : m'.frames = [] := hf
  have hn : m'.scopes.all.size = m.scopes.all.size + 1 := Scopes.size_addChild _ _
  refine hopened.enter o rfl (fun f hf => ?_) h.provides.root ?_ ?_
  · rw [hframes] at hf
    cases hf
  · exact hn.symm ▸ Nat.lt_succ_self m.scopes.all.size
  · rw [hframes]
    intro f hf
    obtain rfl := Option.some.inj hf
    rfl

theorem tick (h : m.Poised s B) (abort : Bool) : (m.tick s abort).Poised s B := by
  unfold Machine.tick
  split
  · exact h
  have hr : m.isRunning = true := by simp_all
  split
  · exact h.cutOff _
  split
  · exact h.enterRoot o hr (by simp_all)
  have hs : m.started = true := by simp_all
  split
  · exact h.cutOff _
  · have hcount : (m.setRecord m.record.countStep).Poised s B :=
      ⟨h.toIntact.of_eq rfl rfl, h.stack, h.fresh⟩
    exact hcount.step o hB hr hs

end Poised

/-- A machine that is ticked again and again; it may be asked to abort at any tick. -/
def ticks (s : Setting) (aborts : List Bool) (m : Machine) : Machine :=
  aborts.foldl (fun m abort => m.tick s abort) m

/-- What every tick keeps is kept. -/
theorem ticks_induction {I : Machine → Prop} (tick : ∀ m abort, I m → I (m.tick s abort)) (h : I m)
    (aborts : List Bool) : I (m.ticks s aborts) := by
  induction aborts generalizing m with
  | nil => exact h
  | cons abort aborts ih => exact ih (tick m abort h)

theorem run_eq_ticks (s : Setting) (abort : Bool) (m : Machine) (n : Nat) :
    m.run s abort n = m.ticks s (.replicate n abort) := by
  induction n generalizing m with
  | zero => rfl
  | succ n ih => rw [run_succ, ih, List.replicate_succ]; rfl

theorem poised_start {scopes : Scopes} (ha : s.Provides B scopes.all.size)
    (hs : scopes.Every (Closure.Among B scopes.all.size)) : (start scopes).Poised s B where
  provides := ha
  scopes := hs
  faults _ hb := by cases hb
  stack _ hs := by cases hs
  fresh _ _ := rfl

theorem Poised.ticks (o : s.program.tree.Ordered) (hB : ∀ i < s.program.tree.size, B i)
    (h : m.Poised s B) (aborts : List Bool) : (m.ticks s aborts).Poised s B :=
  ticks_induction (fun _ abort h => h.tick o hB abort) h aborts

/-- If all bodies that may be run lie in the tree, nothing breaks the machine. -/
theorem Intact.unbroken (h : m.Intact s (· < s.program.tree.size)) (fault : Fault) :
    m.status ≠ .broken fault := by
  intro hf
  obtain ⟨i, inside, outside, -⟩ := h.faults fault hf
  exact absurd inside (Nat.not_lt.2 outside)

/-- However often a pass is ticked, and whenever it is asked to abort, its machine is not broken: no
step is missing, no child, no value and no scope. While it runs, every frame stands at a step, and the
lowest one is that of the root. -/
theorem never_broken {d : Draft} {body : NodeId} (ht : d.finish body = .ok s.program.tree)
    {scopes : Scopes} (ha : s.Alive scopes.all.size)
    (hs : scopes.Every (Closure.Lives s.program.tree scopes.all.size)) (aborts : List Bool) :
    (∀ fault, ((start scopes).ticks s aborts).status ≠ .broken fault) ∧
      (((start scopes).ticks s aborts).isRunning = true →
        (∀ f ∈ ((start scopes).ticks s aborts).frames, f.cursor < f.steps.length) ∧
        Rooted s.root ((start scopes).ticks s aborts).frames) := by
  have h := (poised_start ha.provides hs).ticks (Draft.finish_ordered ht) (fun _ hi => hi) aborts
  refine ⟨h.unbroken, fun hr => ?_⟩
  cases hs : ((start scopes).ticks s aborts).started with
  | false =>
    rw [h.fresh hr hs]
    exact ⟨by simp, by simp [Rooted]⟩
  | true =>
    obtain ⟨f, rest, hm, hf, hw, hroot⟩ := h.stack hr hs
    rw [hm]
    refine ⟨fun g hg => ?_, hroot⟩
    rcases List.mem_cons.1 hg with rfl | hg
    · obtain ⟨-, -, hc, -⟩ := hf.heights
      exact hc
    · obtain ⟨-, -, hc, -⟩ := (hw g hg).heights
      exact hc

end Machine

/-! A function that calls itself without end, against globals and committed values that hold one. -/

namespace Endless

def draft : Draft :=
  ⟨#[⟨.reference "f", [], none, none⟩, ⟨.reference "x", [], none, none⟩,
    ⟨.call, [0, 1], none, none⟩, ⟨.function ["x"], [2], none, none⟩, ⟨.bind "f", [3], none, none⟩,
    ⟨.reference "f", [], none, none⟩, ⟨.stream "s", [], none, none⟩, ⟨.call, [5, 6], none, none⟩,
    ⟨.block, [4, 7], none, none⟩]⟩

def tree : Tree := ((draft.finish 8).toOption).getD ⟨#[], 0⟩

/-- The function, made in the globals. -/
def itself : Value := .function ⟨3, 2, ["x"], 0⟩

def scopes : Scopes := Scopes.empty.addRoot.2.define 0 "g" itself

def setting : Setting where
  program := .ofTree tree
  cache := Cache.empty.put 4 ⟨itself, 1, none, false, false⟩
  staleness := .empty
  globals := 0
  snapshot := ⟨2, [("s", ⟨.list [itself], 1, true, false, false⟩)]⟩
  root := 8
  budget := 1000
  policy := .degrade

theorem itself_lives : itself.Every (Closure.Lives tree 1) :=
  Value.every_function.2 ⟨by decide +kernel, Nat.one_pos⟩

theorem alive : setting.Alive scopes.all.size where
  root := by decide +kernel
  globals := by decide
  cache i e he := by
    simp only [setting, Cache.find?_put, Cache.find?_empty] at he
    split at he
    · cases he
      exact itself_lives
    · cases he
  snapshot stream e he := by
    obtain ⟨-, rfl⟩ : (stream, e) = ("s", _) := List.mem_singleton.1 (Assoc.mem_of_get? he)
    exact Value.every_list.2 fun v hv => List.mem_singleton.1 hv ▸ itself_lives

end Endless

/-- After sixty ticks it is still running, seven bodies deep. -/
theorem Machine.endless_never_broken :
    ((Machine.start Endless.scopes).ticks Endless.setting (.replicate 60 false)).depth = 10 ∧
      ∀ aborts : List Bool, (∀ fault,
        ((Machine.start Endless.scopes).ticks Endless.setting aborts).status ≠ .broken fault) ∧
      (((Machine.start Endless.scopes).ticks Endless.setting aborts).isRunning = true →
        (∀ f ∈ ((Machine.start Endless.scopes).ticks Endless.setting aborts).frames,
          f.cursor < f.steps.length) ∧
        Rooted 8 ((Machine.start Endless.scopes).ticks Endless.setting aborts).frames) := by
  have hd : Endless.draft.finish 8 = .ok Endless.setting.program.tree := by decide +kernel
  have hs : Endless.scopes.Every (Closure.Lives Endless.tree Endless.scopes.all.size) :=
    Scopes.every_empty.addRoot.define 0 "g" Endless.itself_lives
  exact ⟨by decide +kernel, Machine.never_broken hd Endless.alive hs⟩

end StreamLang
