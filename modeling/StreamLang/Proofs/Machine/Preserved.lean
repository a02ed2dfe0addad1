import StreamLang.Proofs.Machine.Moves
import StreamLang.Proofs.Scopes
/-!
What a pass does to the scopes there were before it: nothing. A frame that binds names has opened a
scope of its own first, and arguments are bound in a new scope too, so whatever a pass binds, it binds
in scopes that it has made itself.
-/
namespace StreamLang

/-- Only a node that opens a scope first binds names in its steps. -/
theorem Tree.opens_of_define_mem {t : Tree} {i : NodeId} {name : String}
    (h : .define name ∈ t.steps i) : (t.steps i).head? = some .enterScope := by
  unfold steps at h ⊢
  cases hn : t.node? i with
  | none => simp [hn] at h
  | some n =>
    simp only [hn] at h ⊢
    split at h
    · simp [failSteps] at h
    split at h
    · rename_i hfits
      rw [if_pos hfits]
      cases hk : n.kind with
      | block => rfl
      | binary operators => simp [kindSteps, hk, chainSteps] at h
      | reaction =>
        simp only [kindSteps, hk] at h
        split at h <;> simp at h
      | previous =>
        simp only [kindSteps, hk] at h
        split at h <;> simp [failSteps] at h
      | _ => simp [kindSteps, hk, collectSteps, failSteps] at h
    · simp [failSteps] at h

namespace Frame

/-- A frame that binds names opens a scope first, and then stands in one that is not among the first
`n`. -/
def Owns (n : Nat) (f : Frame) : Prop :=
  ∀ name, .define name ∈ f.steps →
    f.steps.head? = some .enterScope ∧ (f.cursor = 0 ∨ n ≤ f.scope)

variable {n : Nat} {f g : Frame} {a : Step}

theorem owns_start (t : Tree) (n : Nat) (i : NodeId) (x : ScopeId) :
    (start i (t.steps i) x).Owns n := fun _ h => ⟨Tree.opens_of_define_mem h, .inl rfl⟩

theorem Owns.of_eq (h : f.Owns n) (steps : g.steps = f.steps) (cursor : g.cursor = f.cursor)
    (scope : g.scope = f.scope) : g.Owns n := by
  intro name hd
  rw [steps] at hd ⊢
  rw [cursor, scope]
  exact h name hd

/-- Past its first step, a frame that binds names stands in a scope of its own. -/
theorem Owns.le_scope (h : f.Owns n) (ha : f.steps[f.cursor]? = some a) (hne : a ≠ .enterScope)
    {name : String} (hd : .define name ∈ f.steps) : n ≤ f.scope := by
  obtain ⟨hhead, h0 | hle⟩ := h name hd
  · rw [h0, ← List.head?_eq_getElem?, hhead] at ha
    exact absurd (Option.some.inj ha).symm hne
  · exact hle

theorem Owns.resumes (h : f.Owns n) (ha : f.steps[f.cursor]? = some a) (hne : a ≠ .enterScope)
    (hg : f.Resumes g) : g.Owns n := by
  intro name hd
  rw [hg.steps] at hd ⊢
  rw [hg.scope]
  exact ⟨(h name hd).1, .inr (h.le_scope ha hne hd)⟩

end Frame

namespace Machine

/-- The scopes there were before a machine was started are as they were, and no frame of it will
bind a name in one of them. -/
structure Preserves (base : Scopes) (m : Machine) : Prop where
  kept : base.Extends m.scopes
  nested : m.scopes.Nested
  scope : ∀ f ∈ m.frames, f.scope < m.scopes.all.size
  owns : ∀ f ∈ m.frames, f.Owns base.all.size

namespace Preserves

variable {s : Setting} {base : Scopes} {m m' : Machine} {f g : Frame} {rest : List Frame} {a : Step}

theorem start (hn : base.Nested) : (Machine.start base).Preserves base :=
  ⟨.refl base, hn, by simp [Machine.start], by simp [Machine.start]⟩

theorem of_eq (h : m.Preserves base) (scopes : m'.scopes = m.scopes)
    (frames : ∀ f ∈ m'.frames, f ∈ m.frames) : m'.Preserves base :=
  ⟨scopes ▸ h.kept, scopes ▸ h.nested, fun f hf => scopes ▸ h.scope f (frames f hf),
    fun f hf => h.owns f (frames f hf)⟩

/-- Another frame, over some of those that there were. -/
theorem put (h : m.Preserves base) (rest_mem : ∀ f ∈ rest, f ∈ m.frames)
    (scope : g.scope < m.scopes.all.size) (owns : g.Owns base.all.size) :
    (m.put g rest).Preserves base := by
  refine ⟨h.kept, h.nested, fun f hf => ?_, fun f hf => ?_⟩ <;> rcases List.mem_cons.1 hf with rfl | hf
  · exact scope
  · exact h.scope f (rest_mem f hf)
  · exact owns
  · exact h.owns f (rest_mem f hf)

theorem openScope (h : m.Preserves base) {p : ScopeId} (hp : p < m.scopes.all.size) :
    (m.openScope p).2.Preserves base where
  kept := h.kept.trans (Scopes.extends_addChild m.scopes p)
  nested := Scopes.nested_addChild h.nested hp
  scope f hf := Nat.lt_of_lt_of_le (h.scope f hf) (Scopes.extends_addChild m.scopes p).size_le
  owns := h.owns

theorem define (h : m.Preserves base) {x : ScopeId} (hx : base.all.size ≤ x)
    (bindings : List (String × Value)) : (m.define x bindings).Preserves base where
  kept := Scopes.extends_defineAll h.kept hx bindings
  nested := Scopes.nested_defineAll h.nested x bindings
  scope f hf := Nat.lt_of_lt_of_eq (h.scope f hf) (Scopes.size_defineAll m.scopes x bindings).symm
  owns := h.owns

theorem call (h : m.Preserves base) (i : NodeId) {x : ScopeId} (hx : x < m.scopes.all.size) :
    (m.call s i x).Preserves base :=
  call_induction (fun _ => h.of_eq rfl fun _ h => h) fun _ =>
    (h.of_eq rfl fun _ h => h : (m.setRecord (m.record.countEvaluation i)).Preserves base).put
      (fun _ h => h) hx (Frame.owns_start _ _ i x)

theorem handDown (h : m.Preserves base) (version : Option Nat) (v : Value) :
    (m.handDown version v).Preserves base := by
  unfold Machine.handDown
  cases hf : m.frames with
  | nil => exact h.of_eq rfl fun _ h => h
  | cons f rest =>
    have hmem : f ∈ m.frames := hf ▸ List.mem_cons_self
    exact h.put (fun _ hg => hf ▸ List.mem_cons_of_mem _ hg) (h.scope f hmem)
      ((h.owns f hmem).of_eq rfl rfl rfl)

theorem enter (h : m.Preserves base) (i : NodeId) {x : ScopeId} (hx : x < m.scopes.all.size) :
    (m.enter s i x).Preserves base := by
  unfold Machine.enter
  split
  · exact (h.of_eq rfl fun _ h => h :
      (m.setRecord (s.noteReuse m.record i)).Preserves base).handDown none _
  · exact h.call i hx

/-- Whatever the frame on top does. -/
theorem moved (h : m.Preserves base) (hm : m.frames = f :: rest)
    (ha : f.steps[f.cursor]? = some a) (hmoved : Moved s m f rest a m') : m'.Preserves base := by
  have hf : f ∈ m.frames := hm ▸ List.mem_cons_self
  have hrest (k : Frame) (hk : k ∈ rest) : k ∈ m.frames := hm ▸ List.mem_cons_of_mem _ hk
  have hx := h.scope f hf
  have go {g : Frame} (hne : a ≠ .enterScope) (hg : f.Resumes g) : (m.put g rest).Preserves base :=
    h.put hrest (hg.scope ▸ hx) ((h.owns f hf).resumes ha hne hg)
  cases hmoved with
  | failed fault => exact h.of_eq rfl fun _ h => h
  | resumed hne hg => exact go hne hg
  | read hg => exact (go (by simp) hg).of_eq rfl fun _ h => h
  | defined hg =>
    have hd := List.mem_of_getElem? ha
    exact (go (by simp) hg).define ((h.owns f hf).le_scope ha (by simp) hd) _
  | opened _ steps scope =>
    refine (h.openScope hx).put hrest ?_ fun name hd => ?_
    · rw [scope]
      exact Nat.lt_of_lt_of_eq (Nat.lt_succ_self _) (Scopes.size_addChild m.scopes f.scope).symm
    · rw [steps] at hd ⊢
      exact ⟨((h.owns f hf) name hd).1, .inr (scope ▸ h.kept.size_le)⟩
  | entered hg => exact (go (by simp) hg).enter _ hx
  | @called g _ c arguments live hg =>
    have hopened := ((go (by simp) hg).openScope live).define (x := m.scopes.all.size)
      h.kept.size_le (c.parameters.zip arguments)
    refine hopened.call c.body ?_
    have hsize := Scopes.size_addChild m.scopes c.scope
    have hdefine := Scopes.size_defineAll (m.scopes.addChild c.scope).2 m.scopes.all.size
      (c.parameters.zip arguments)
    exact Nat.lt_of_lt_of_eq (Nat.lt_succ_self _) (hdefine.trans hsize).symm
  | @finished g version v _ =>
    exact (h.of_eq rfl hrest :
      { m with frames := rest, record := s.noteFinish m.record g v }.Preserves base).handDown _ _

theorem invariant (hg : s.globals < base.all.size) : Invariant s (Preserves base) where
  cutOff _ _ h := h.of_eq rfl fun _ hf => absurd hf List.not_mem_nil
  enterRoot m h := by
    have hopened := h.openScope (Nat.lt_of_lt_of_le hg h.kept.size_le)
    refine (hopened.of_eq rfl fun _ h => h :
      { (m.openScope s.globals).2 with started := true }.Preserves base).enter s.root ?_
    exact Nat.lt_of_lt_of_eq (Nat.lt_succ_self _) (Scopes.size_addChild m.scopes s.globals).symm
  countStep _ h := h.of_eq rfl fun _ h => h
  fail _ _ h := h.of_eq rfl fun _ h => h
  moved _ _ _ _ _ h hm ha hmoved := h.moved hm ha hmoved

end Preserves

/-- However far a machine has run, the scopes there were before it are as they were. -/
theorem preserves_run {s : Setting} {base : Scopes} (hn : base.Nested)
    (hg : s.globals < base.all.size) (abort : Bool) (n : Nat) :
    ((start base).run s abort n).Preserves base :=
  (Preserves.invariant hg).run (Preserves.start hn) abort n

end Machine
end StreamLang
