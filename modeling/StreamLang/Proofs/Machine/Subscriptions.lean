import StreamLang.Proofs.Machine.Moves
import StreamLang.Proofs.Tree.Dependencies
/-!
What a pass subscribes. A frame runs the steps of its node, and only those of a node that names a
stream read one; so a pass subscribes no node but the readers that the analysis knows.
-/
namespace StreamLang

namespace Tree

variable {t : Tree} {i : NodeId} {stream : String} {mode : FetchMode}

theorem fetch_not_mem_statementSteps (t : Tree) (k : Nat) (is : List NodeId) :
    .fetch stream mode ∉ t.statementSteps k is := by
  induction is generalizing k with
  | nil => simp [statementSteps]
  | cons i rest ih =>
    rw [statementSteps]
    have hrest := ih (k + 1)
    split <;> split <;> simp [hrest]

/-- Only the steps of a node that names a stream read one. -/
theorem stream?_of_fetch_mem (h : .fetch stream mode ∈ t.steps i) :
    ∃ k, t.kind? i = some k ∧ k.stream? = some stream := by
  unfold steps at h
  cases hn : t.node? i with
  | none => simp [hn] at h
  | some n =>
    have hkind : t.kind? i = some n.kind := by simp [kind?, hn]
    refine ⟨n.kind, hkind, ?_⟩
    simp only [hn] at h
    split at h
    · simp [failSteps] at h
    split at h
    · cases hk : n.kind with
      | stream name =>
        simp only [kindSteps, hk] at h
        obtain ⟨rfl, -⟩ : stream = name ∧ mode = .latest := by simpa using h
        rfl
      | changed name =>
        simp only [kindSteps, hk] at h
        obtain ⟨rfl, -⟩ : stream = name ∧ mode = .changed := by simpa using h
        rfl
      | block => simp [kindSteps, hk, fetch_not_mem_statementSteps] at h
      | binary operators => simp [kindSteps, hk, chainSteps] at h
      | reaction =>
        simp only [kindSteps, hk] at h
        split at h <;> simp at h
      | previous =>
        simp only [kindSteps, hk] at h
        split at h <;> simp [failSteps] at h
      | _ => simp [kindSteps, hk, collectSteps, failSteps] at h
    · simp [failSteps] at h

end Tree

namespace Setting

variable (s : Setting) (r : Record)

theorem noteFinish_subscriptions (f : Frame) (v : Value) :
    (s.noteFinish r f v).subscriptions = r.subscriptions := by
  unfold noteFinish
  simp only
  split <;> rfl

theorem noteReuse_subscriptions (i : NodeId) :
    (s.noteReuse r i).subscriptions = r.subscriptions := by
  unfold noteReuse
  split <;> split <;> rfl

end Setting

namespace Machine

theorem fetch_subscriptions (s : Setting) (r : Record) (i : NodeId) (stream : String)
    (mode : FetchMode) {x : String × NodeId}
    (h : x ∈ (fetch s r i stream mode).2.2.subscriptions) :
    x ∈ r.subscriptions ∨ x = (stream, i) := by
  unfold fetch at h
  split at h
  · exact .inl h
  · refine mem_pushNew.1 ?_
    cases mode with
    | changed =>
      simp only at h
      split at h <;> exact h
    | latest =>
      simp only at h
      split at h
      · cases hp : s.policy <;> simp only [hp] at h <;> split at h <;> exact h
      · split at h <;> exact h

/-- Every frame runs the steps of its node, and every subscription is that of a known reader. -/
structure Listening (s : Setting) (m : Machine) : Prop where
  steps : ∀ f ∈ m.frames, f.steps = s.program.tree.steps f.node
  subscriptions : ∀ x ∈ m.record.subscriptions, ∃ k,
    s.program.tree.kind? x.2 = some k ∧ k.stream? = some x.1

namespace Listening

variable {s : Setting} {m m' : Machine} {f g : Frame} {rest : List Frame}

theorem start (s : Setting) (scopes : Scopes) : (Machine.start scopes).Listening s :=
  ⟨by simp [Machine.start], by simp [Machine.start, Record.empty]⟩

theorem of_eq (h : m.Listening s) (hf : m'.frames = m.frames)
    (hr : m'.record.subscriptions = m.record.subscriptions) : m'.Listening s :=
  ⟨hf ▸ h.steps, hr ▸ h.subscriptions⟩

/-- The frame on top goes on. -/
theorem put (h : m.Listening s) (hm : m.frames = f :: rest) (hg : g.node = f.node)
    (hs : g.steps = f.steps) : (m.put g rest).Listening s := by
  refine ⟨fun k hk => ?_, h.subscriptions⟩
  rcases List.mem_cons.1 hk with rfl | hk
  · rw [hg, hs]
    exact h.steps f (hm ▸ List.mem_cons_self)
  · exact h.steps k (hm ▸ List.mem_cons_of_mem _ hk)

theorem call (h : m.Listening s) (i : NodeId) (x : ScopeId) : (m.call s i x).Listening s := by
  refine call_induction (fun _ => h.of_eq rfl rfl) fun _ => ⟨fun k hk => ?_, h.subscriptions⟩
  rcases List.mem_cons.1 hk with rfl | hk
  · rfl
  · exact h.steps k hk

theorem handDown (h : m.Listening s) (version : Option Nat) (v : Value) :
    (m.handDown version v).Listening s := by
  unfold Machine.handDown
  cases hf : m.frames with
  | nil => exact h.of_eq rfl rfl
  | cons f rest => exact h.put hf rfl rfl

theorem enter (h : m.Listening s) (i : NodeId) (x : ScopeId) : (m.enter s i x).Listening s := by
  unfold Machine.enter
  split
  · have hr : (m.setRecord (s.noteReuse m.record i)).Listening s :=
      h.of_eq rfl (s.noteReuse_subscriptions m.record i)
    exact hr.handDown none _
  · exact h.call i x

/-- Whatever the frame on top does. -/
theorem moved (h : m.Listening s) (hm : m.frames = f :: rest) {a : Step}
    (ha : f.steps[f.cursor]? = some a) (hmoved : Moved s m f rest a m') : m'.Listening s := by
  have go {g : Frame} (hg : f.Resumes g) : (m.put g rest).Listening s := h.put hm hg.node hg.steps
  cases hmoved with
  | failed fault => exact h.of_eq rfl rfl
  | resumed _ hg => exact go hg
  | @read g stream mode hg =>
    have hmem : .fetch stream mode ∈ s.program.tree.steps f.node := by
      rw [← h.steps f (hm ▸ List.mem_cons_self)]
      exact List.mem_of_getElem? ha
    let m₁ := m.setRecord (Machine.fetch s m.record f.node stream mode).2.2
    have h₁ : m₁.Listening s := by
      refine ⟨h.steps, fun x hx => ?_⟩
      rcases fetch_subscriptions s m.record f.node stream mode hx with hx | rfl
      · exact h.subscriptions x hx
      · exact Tree.stream?_of_fetch_mem hmem
    exact h₁.put hm hg.node hg.steps
  | defined hg => exact (go hg).of_eq rfl rfl
  | opened node steps _ =>
    exact (h.of_eq rfl rfl : (m.openScope f.scope).2.Listening s).put hm node steps
  | entered hg => exact (go hg).enter _ _
  | @called g _ c arguments _ hg =>
    let opened := (m.put g rest).openScope c.scope
    have hopened : (opened.2.define opened.1 (c.parameters.zip arguments)).Listening s :=
      (go hg).of_eq rfl rfl
    exact hopened.call c.body opened.1
  | @finished g version v _ =>
    have hrest : { m with frames := rest, record := s.noteFinish m.record g v }.Listening s :=
      ⟨fun k hk => h.steps k (hm ▸ List.mem_cons_of_mem _ hk),
        (s.noteFinish_subscriptions m.record g v).symm ▸ h.subscriptions⟩
    exact hrest.handDown _ _

theorem invariant (s : Setting) : Invariant s (Listening s) where
  cutOff _ _ h := ⟨by simp [cutOff], h.subscriptions⟩
  enterRoot m h :=
    have hopened : { (m.openScope s.globals).2 with started := true }.Listening s := h.of_eq rfl rfl
    hopened.enter s.root (m.openScope s.globals).1
  countStep _ h := h.of_eq rfl rfl
  fail _ _ h := h.of_eq rfl rfl
  moved _ _ _ _ _ h hm ha hmoved := h.moved hm ha hmoved

end Listening

end Machine
end StreamLang
