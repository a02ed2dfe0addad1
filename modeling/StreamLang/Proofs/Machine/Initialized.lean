import StreamLang.Proofs.Machine.Outcomes
import StreamLang.Proofs.Machine.Untouched
/-!
Reactions that have a state. A frame of such a reaction leads past its first part at its first step, and
never comes back to it. So that part can only be run as the body of a function.
-/
namespace StreamLang

/-- What a step of a reaction is like: only the second evaluates the first part, no other leads there than
the one that looks for a state, which leads past it otherwise, and none calls anything. -/
structure Step.OfReaction (steps : List Step) (n : Nat) (a : Step) : Prop where
  first : a = .evaluate 0 → n = 1
  past : ∀ target, a = .jumpIfInitialized target → target = 3
  plain : ∀ count, a ≠ .apply (.call count)
  leads : ∀ k q k', (q, k') ∈ a.leads n k steps.length → steps[q]? = some (.evaluate 0) →
    ∃ target, a = .jumpIfInitialized target

theorem Tree.ofReaction {t : Tree} {r : NodeId} (hr : t.kind? r = some .reaction) {n : Nat} {a : Step}
    (h : (t.steps r)[n]? = some a) : a.OfReaction (t.steps r) n := by
  have hn := (List.getElem?_eq_some_iff.1 h).1
  rcases steps_of_reaction hr with ⟨-, hs⟩ | hs | ⟨kind, message, hs⟩ <;> rw [hs] at h hn ⊢ <;>
    simp only [failSteps, List.length_cons, List.length_nil] at h hn ⊢ <;>
    interval_cases n <;> cases h <;> constructor <;> simp [Step.leads]
  -- the condition leads to three places
  rintro k q k' (⟨rfl, -⟩ | ⟨rfl, -⟩ | ⟨rfl, -⟩) <;> simp

namespace Machine

/-- No frame of the reaction is about to evaluate its first part. -/
def Skips (r : NodeId) (m : Machine) : Prop :=
  ∀ f ∈ m.frames, f.node = r → f.steps[f.cursor]? ≠ some (.evaluate 0)

namespace Skips

variable {s : Setting} {m m' : Machine} {f g : Frame} {rest : List Frame} {r i : NodeId}

theorem of_eq (h : m.Skips r) (frames : m'.frames = m.frames) : m'.Skips r := by
  rw [Skips, frames]
  exact h

theorem put (h : m.Skips r) (hm : m.frames = f :: rest)
    (hg : g.node = r → g.steps[g.cursor]? ≠ some (.evaluate 0)) : (m.put g rest).Skips r :=
  List.forall_mem_cons.2 ⟨hg, fun k hk => h k (hm ▸ List.mem_cons_of_mem _ hk)⟩

theorem handDown (h : m.Skips r) (version : Option Nat) (v : Value) :
    (m.handDown version v).Skips r := by
  unfold Machine.handDown
  cases hf : m.frames with
  | nil => exact h.of_eq rfl
  | cons f rest => exact h.put hf (h f (hf ▸ List.mem_cons_self))

section Reaction

variable (hr : s.program.tree.kind? r = some .reaction)
include hr

/-- At its first step a reaction evaluates nothing. -/
theorem call (h : m.Skips r) (i : NodeId) (x : ScopeId) : (m.call s i x).Skips r := by
  refine call_induction (fun _ => h.of_eq rfl) fun _ => List.forall_mem_cons.2 ⟨?_, h⟩
  rintro rfl hc
  exact Nat.zero_ne_one ((Tree.ofReaction hr hc).first rfl)

theorem enter (h : m.Skips r) (i : NodeId) (x : ScopeId) : (m.enter s i x).Skips r := by
  unfold Machine.enter
  split
  · exact (h.of_eq rfl : (m.setRecord (s.noteReuse m.record i)).Skips r).handDown none _
  · exact h.call hr i x

/-- Whatever another frame does. -/
theorem moved (h : m.Skips r) (hm : m.frames = f :: rest) (hf : f.node ≠ r) {a : Step}
    (hmoved : Moved s m f rest a m') : m'.Skips r := by
  have go {g : Frame} (hg : g.node = f.node) : (m.put g rest).Skips r :=
    h.put hm fun hgr => absurd (hg.symm.trans hgr) hf
  cases hmoved with
  | failed fault => exact h.of_eq rfl
  | resumed _ hg => exact go hg.node
  | read hg => exact (go hg.node).of_eq rfl
  | defined hg => exact (go hg.node).of_eq rfl
  | opened node => exact (go node).of_eq rfl
  | entered hg => exact (go hg.node).enter hr _ _
  | @called g _ c arguments _ hg =>
    let opened := (m.put g rest).openScope c.scope
    have hopened : (opened.2.define opened.1 (c.parameters.zip arguments)).Skips r :=
      (go hg.node).of_eq rfl
    exact hopened.call hr c.body opened.1
  | @finished g version v =>
    have hrest : { m with frames := rest, record := s.noteFinish m.record g v }.Skips r :=
      fun k hk => h k (hm ▸ List.mem_cons_of_mem _ hk)
    exact hrest.handDown _ _

/-- What a frame of the reaction itself does, if it has a state. -/
theorem execute (h : m.Skips r) (hstate : s.cache.has r = true) (hm : m.frames = f :: rest)
    (hf : f.node = r) (hs : f.steps = s.program.tree.steps f.node) {a : Step}
    (ha : f.steps[f.cursor]? = some a) :
    (m.execute s { f with cursor := f.cursor + 1 } rest a).Skips r := by
  subst hf
  by_cases hjump : ∃ target, a = .jumpIfInitialized target
  · obtain ⟨target, rfl⟩ := hjump
    obtain rfl := (Tree.ofReaction hr (hs ▸ ha)).past _ rfl
    simp only [Machine.execute, hstate, if_true]
    refine h.put hm fun _ hc => ?_
    have hone := (Tree.ofReaction hr (hs ▸ hc)).first rfl
    cases hone
  have went : Went s m f rest a (m.execute s { f with cursor := f.cursor + 1 } rest a) :=
    went_execute a fun count hc => absurd hc ((Tree.ofReaction hr (hs ▸ ha)).plain count)
  generalize m.execute s { f with cursor := f.cursor + 1 } rest a = m' at went
  cases went with
  | failed fault => exact h.of_eq rfl
  | on frames node steps leads other writes binds hstarted =>
    rw [Skips, frames]
    refine List.forall_mem_cons.2 ⟨fun _ hc => hjump ?_, fun k hk => h k (hm ▸ List.mem_cons_of_mem _ hk)⟩
    rw [steps, hs] at hc
    exact (Tree.ofReaction hr (hs ▸ ha)).leads _ _ _ (hs ▸ leads) hc
  | @entered j i child =>
    have hput : (m.put { f with cursor := f.cursor + 1 } rest).Skips f.node := by
      refine h.put hm fun _ hc => hjump ?_
      exact (Tree.ofReaction hr (hs ▸ ha)).leads 0 _ _ (List.mem_singleton_self _) (hs ▸ hc)
    exact hput.enter hr i f.scope
  | @finished v version g node =>
    have hrest : { m with frames := rest, record := s.noteFinish m.record g v }.Skips f.node :=
      fun k hk => h k (hm ▸ List.mem_cons_of_mem _ hk)
    exact hrest.handDown _ _

/-- A tick keeps it, if the reaction has a state. -/
theorem tick (h : m.Skips r) (listening : m.Listening s) (hstate : s.cache.has r = true)
    (abort : Bool) : (m.tick s abort).Skips r := by
  have hcount : (m.setRecord m.record.countStep).Skips r := h.of_eq rfl
  generalize hm' : m.tick s abort = m'
  cases ticked hm' with
  | ended => exact h
  | cutOff => exact fun _ hf => absurd hf List.not_mem_nil
  | entered =>
    exact (h.of_eq rfl : { (m.openScope s.globals).2 with started := true }.Skips r).enter hr _ _
  | failed => exact hcount.of_eq rfl
  | @executed f rest a hm ha =>
    by_cases hf : f.node = r
    · exact hcount.execute hr hstate hm hf (listening.steps f (hm ▸ List.mem_cons_self)) ha
    · have resumes : f.Resumes { f with cursor := f.cursor + 1 } := ⟨rfl, rfl, rfl⟩
      exact hcount.moved hr hm hf (moved_execute resumes a)

end Reaction
end Skips

/-- A machine in which the first part of a reaction that has a state is not run: no frame is about to
evaluate it, and it could only be the body of a function. -/
structure LeavesOut (r first : NodeId) (m : Machine) : Prop where
  skips : m.Skips r
  untouched : m.Untouched first

namespace LeavesOut

variable {s : Setting} {m : Machine} {r first : NodeId}

theorem start (scopes : Scopes) (r first : NodeId) : (Machine.start scopes).LeavesOut r first :=
  ⟨fun _ hf => absurd hf List.not_mem_nil, .start scopes first⟩

/-- A tick keeps it, if no function among the values has the part for its body. -/
theorem tick (h : m.LeavesOut r first) (o : s.program.tree.Ordered)
    (hr : s.program.tree.kind? r = some .reaction)
    (hfirst : (s.program.tree.children r).head? = some first) (hroot : s.root ≠ first)
    (listening : m.Listening s) (hstate : s.cache.has r = true)
    (hvalues : ∀ f ∈ m.frames, ∀ v ∈ f.values, v.Every fun c => c.body ≠ first) (abort : Bool) :
    (m.tick s abort).LeavesOut r first := by
  refine ⟨h.skips.tick hr listening hstate abort,
    h.untouched.tick (fun he => absurd he hroot) (fun f hf index ha hi => ?_) hvalues abort⟩
  -- only the reaction has the part, and only in the first place
  have hmem : first ∈ s.program.tree.children r := List.mem_of_mem_head? hfirst
  have hnode : f.node = r := o.parent_unique (List.mem_of_getElem? hi) hmem
  rw [hnode] at hi
  have hzero : (s.program.tree.children r)[0]? = some first := by
    rw [← List.head?_eq_getElem?]
    exact hfirst
  have hindex : index = 0 := by
    have hlt := (List.getElem?_eq_some_iff.1 hi).1
    exact (List.getElem?_inj hlt (o.nodup r)).1 (hi.trans hzero.symm)
  exact absurd (hindex ▸ ha) (h.skips f hf hnode)

end LeavesOut
end Machine
end StreamLang
