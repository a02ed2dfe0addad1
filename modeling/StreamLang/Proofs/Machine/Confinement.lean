import StreamLang.Proofs.Machine.Functions
import StreamLang.Proofs.Machine.Subscriptions
import StreamLang.Proofs.Reuse.Records
/-!
What a pass can come by and what it writes. If the functions are such that there are in committed values,
in what the streams show and in the scopes that a pass can look into, and also those that its program makes,
then every function that the pass ever holds is such, and so is every function in a value that it writes.
-/
namespace StreamLang

namespace Tree

variable {t : Tree} {G : ScopeId → Prop} {q : Closure → Prop}

/-- All functions that the program makes in some of the scopes are such. -/
def Makes (t : Tree) (G : ScopeId → Prop) (q : Closure → Prop) : Prop :=
  ∀ i body parameters scope, t.kind? i = some (.function parameters) → t.children i = [body] →
    G scope → q ⟨i, body, parameters, scope⟩

/-- Only a function node makes a function, of its parameters and its one part. -/
theorem made_of_mem_steps {i function body : NodeId} {parameters : List String}
    (h : .apply (.makeFunction function body parameters) ∈ t.steps i) :
    function = i ∧ t.kind? i = some (.function parameters) ∧ t.children i = [body] := by
  obtain ⟨rfl, hk, hb⟩ := meets_of_mem_steps _ h
  refine ⟨rfl, hk, ?_⟩
  rcases fault_or_working (lt_size_iff.1 (lt_size_of_kind hk)) with ⟨kind, message, hf⟩ | ⟨n, hw⟩
  · simp [steps_of_fault hf, failSteps] at h
  · have hfits := hw.fits
    rw [Option.some.inj (hw.kind.symm.trans hk)] at hfits
    obtain ⟨c, hc⟩ : ∃ c, n.children = [c] := List.length_eq_one_iff.1 (by simpa [fits] using hfits)
    rw [hw.children, hc] at hb ⊢
    rw [List.mem_singleton.1 hb]

end Tree

/-- All functions that a pass finds, and all that its program makes, are such and come from some of the
scopes. -/
structure Setting.Contains (G : ScopeId → Prop) (q : Closure → Prop) (s : Setting) : Prop where
  holds : s.Holds q
  globals : G s.globals
  inside : ∀ c, q c → G c.scope
  makes : s.program.tree.Makes G q

namespace Machine

variable {s : Setting} {m : Machine} {f : Frame} {rest : List Frame}

theorem writes_enter (i : NodeId) (x : ScopeId) :
    (m.enter s i x).record.writes = m.record.writes := by
  unfold enter
  split
  · rw [record_handDown]
    exact s.noteReuse_writes m.record i
  · exact writes_call m i x

/-- Only a node that finishes is written, with its result. -/
theorem mem_writes_execute {x : NodeId × Write} (a : Step)
    (hx : x ∈ (m.execute s { f with cursor := f.cursor + 1 } rest a).record.writes) :
    x ∈ m.record.writes ∨ x.1 = f.node ∧ x.2.value ∈ f.values ∧
      x.2.reaction = (s.program.tree.kind? f.node == some .reaction) := by
  by_cases ha : a = .finish
  · subst ha
    simp only [execute] at hx
    split at hx
    · rename_i v values hv
      rw [record_handDown, s.noteFinish_writes] at hx
      rcases Assoc.mem_of_mem_put hx with rfl | hx
      · exact .inr ⟨rfl, hv ▸ List.mem_cons_self, rfl⟩
      · exact .inl hx
    · exact .inl hx
  · left
    have resumes : f.Resumes { f with cursor := f.cursor + 1 } := ⟨rfl, rfl, rfl⟩
    have moved : Moved s m f rest a (m.execute s { f with cursor := f.cursor + 1 } rest a) :=
      moved_execute resumes a
    generalize m.execute s { f with cursor := f.cursor + 1 } rest a = m' at moved hx
    cases moved with
    | failed | resumed | defined | opened => exact hx
    | called => rwa [writes_call] at hx
    | read => exact (fetch_record s m.record f.node _ _).1 ▸ hx
    | entered => rwa [writes_enter] at hx
    | finished => exact absurd rfl ha

/-- All functions that the machine holds or has written are such, and what it has written for reactions
is known to be theirs. -/
structure Contained (s : Setting) (G : ScopeId → Prop) (q : Closure → Prop) (m : Machine) : Prop where
  listening : m.Listening s
  confined : m.Confined G q
  values : ∀ x ∈ m.record.writes, x.2.value.Every q
  reactions : ∀ x ∈ m.record.writes, x.2.reaction = (s.program.tree.kind? x.1 == some .reaction)

namespace Contained

variable {G : ScopeId → Prop} {q : Closure → Prop}

theorem start (s : Setting) {scopes : Scopes} (h : scopes.Confines G q) :
    (Machine.start scopes).Contained s G q where
  listening := .start s scopes
  confined := ⟨h, fun _ hf => absurd hf List.not_mem_nil, fun _ hf => absurd hf List.not_mem_nil⟩
  values _ hx := absurd hx List.not_mem_nil
  reactions _ hx := absurd hx List.not_mem_nil

/-- When a pass is over, its record is taken out. -/
theorem forget (h : m.Contained s G q) : { m with record := .empty }.Contained s G q where
  listening := ⟨h.listening.steps, fun _ hx => absurd hx List.not_mem_nil⟩
  confined := h.confined.of_eq rfl rfl
  values _ hx := absurd hx List.not_mem_nil
  reactions _ hx := absurd hx List.not_mem_nil

theorem execute (h : m.Contained s G q) (hs : s.Contains G q) {f : Frame} {rest : List Frame}
    {a : Step} (hm : m.frames = f :: rest) (ha : f.steps[f.cursor]? = some a) :
    (m.execute s { f with cursor := f.cursor + 1 } rest a).Confined G q ∧
      ∀ x ∈ (m.execute s { f with cursor := f.cursor + 1 } rest a).record.writes,
        x.2.value.Every q ∧ x.2.reaction = (s.program.tree.kind? x.1 == some .reaction) := by
  have hf : f ∈ m.frames := hm ▸ List.mem_cons_self
  have hmem : a ∈ s.program.tree.steps f.node :=
    h.listening.steps f hf ▸ List.mem_of_getElem? ha
  refine ⟨h.confined.execute hs.holds hm hs.inside (Tree.meets_of_mem_steps a hmem) ?_,
    fun x hx => ?_⟩
  · rintro function body parameters rfl
    obtain ⟨rfl, hk, hb⟩ := Tree.made_of_mem_steps hmem
    exact hs.makes _ _ _ _ hk hb (h.confined.inside f hf)
  · rcases mem_writes_execute a hx with hx | ⟨hnode, hv, hreaction⟩
    · exact ⟨h.values x hx, h.reactions x hx⟩
    · exact ⟨h.confined.values f hf _ hv, hnode ▸ hreaction⟩

/-- A tick keeps it. -/
theorem tick (h : m.Contained s G q) (hs : s.Contains G q) (abort : Bool) :
    (m.tick s abort).Contained s G q := by
  have listening := (Listening.invariant s).tick h.listening abort
  have hcount : (m.setRecord m.record.countStep).Contained s G q :=
    ⟨h.listening.of_eq rfl rfl, h.confined.of_eq rfl rfl, h.values, h.reactions⟩
  generalize hm' : m.tick s abort = m' at listening ⊢
  cases ticked hm' with
  | ended => exact h
  | cutOff => exact ⟨listening, h.confined.cutOff _, h.values, h.reactions⟩
  | entered =>
    have hwrites : (m.enterRoot s).record.writes = m.record.writes := writes_enter ..
    exact ⟨listening, h.confined.enterRoot hs.holds hs.globals, hwrites ▸ h.values,
      hwrites ▸ h.reactions⟩
  | failed => exact ⟨listening, hcount.confined.of_eq rfl rfl, h.values, h.reactions⟩
  | executed hm ha =>
    obtain ⟨confined, writes⟩ := hcount.execute hs hm ha
    exact ⟨listening, confined, fun x hx => (writes x hx).1, fun x hx => (writes x hx).2⟩

end Contained
end Machine
end StreamLang
