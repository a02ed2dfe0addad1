import StreamLang.Proofs.Machine.Outcomes
import StreamLang.Proofs.Tree.Volatile
/-!
When the second part of a reaction is run that has a state. The reaction was not answered from what was
committed, so that part is marked: as changed, or in doubt about a bind that has come out different.
-/
namespace StreamLang

namespace Tree

variable {t : Tree} {i r : NodeId}

/-- The reaction `r` has no condition, and once it has a state it goes on with `n`. -/
structure Iterates (t : Tree) (r n : NodeId) : Prop where
  kind : t.kind? r = some .reaction
  parts : ∃ first, t.children r = [first, n]

namespace Iterates

variable {n : NodeId} (it : t.Iterates r n)
include it

theorem child : n ∈ t.children r := by
  obtain ⟨first, h⟩ := it.parts
  simp [h]

theorem kindIs : t.kindIs (· == .reaction) r = true := by simp [Tree.kindIs, it.kind]

/-- The step that comes to `n` is the fourth one. -/
theorem cursor_eq (o : t.Ordered) {p k : Nat} (hp : (t.steps r)[p]? = some (.evaluate k))
    (hk : (t.children r)[k]? = some n) : p = 3 := by
  obtain ⟨first, hc⟩ := it.parts
  have hne : first ≠ n := by
    have := o.nodup r
    rw [hc] at this
    simpa using this
  have hlen := (List.getElem?_eq_some_iff.1 hp).1
  rcases steps_of_reaction it.kind with ⟨-, h⟩ | h | ⟨kind, message, h⟩ <;> rw [h] at hp hlen <;>
    simp only [failSteps, List.length_cons, List.length_nil] at hp hlen <;>
    interval_cases p <;> cases hp <;> simp [hc, hne] at hk ⊢

end Iterates
end Tree

/-- What the second part of a reaction depends on is not clean: it is marked as changed, or in doubt
while a bind that it depends on has another value than the committed one. -/
def Setting.Upset (s : Setting) (r : Record) (n : NodeId) : Prop :=
  s.staleness.mark? n = some .dirty ∨ s.staleness.mark? n = some .maybeDirty ∧
    ∃ b ∈ s.program.analysis.dependencies n, ∃ v, r.written? b = some v ∧
      (s.cache.value? b).any (·.equal v) = false

/-- A reaction that is used again has a second part that has not changed for certain. -/
theorem Tree.Iterates.not_dirty {s : Setting} {record : Record} {r n : NodeId}
    (it : s.program.tree.Iterates r n) (h : (s.reuse? record r).isSome) :
    s.staleness.mark? n ≠ some .dirty := by
  intro hd
  obtain ⟨first, hc⟩ := it.parts
  have hholds : s.holds record r = false := by
    simp [Setting.holds, it.kindIs, hc, Setting.unaffected, hd]
  simp [Setting.reuse?, hholds] at h

namespace Machine

/-- The node that the next tick comes to, if it is not asked to abort. -/
def entering? (s : Setting) (m : Machine) : Option NodeId :=
  if !m.isRunning then none
  else if !m.started then some s.root
  else if s.budget ≤ m.record.steps then none
  else match m.frames with
    | [] => none
    | f :: _ => match f.steps[f.cursor]? with
      | some (.evaluate k) => (s.program.tree.children f.node)[k]?
      | _ => none

/-- The next tick begins to run a node. -/
def begins (s : Setting) (m : Machine) (i : NodeId) : Bool :=
  m.entering? s == some i && (s.reuse? m.record i).isNone

/-- The next tick finds the committed value of a node to hold. -/
def reuses (s : Setting) (m : Machine) (i : NodeId) : Bool :=
  m.entering? s == some i && (s.reuse? m.record i).isSome

variable {s : Setting} {D : Deeds} {m : Machine} {r n : NodeId}

theorem entering?_cases (h : m.entering? s = some n) : m.started = false ∧ n = s.root ∨
    ∃ f rest k, m.frames = f :: rest ∧ f.steps[f.cursor]? = some (.evaluate k) ∧
      (s.program.tree.children f.node)[k]? = some n := by
  unfold entering? at h
  split at h
  · cases h
  split at h
  · rename_i hs
    exact .inl ⟨by simpa using hs, (Option.some.inj h).symm⟩
  split at h
  · cases h
  split at h
  · cases h
  · rename_i f rest hm
    split at h
    · rename_i k hk
      exact .inr ⟨f, rest, k, hm, hk, h⟩
    · cases h

/-- A reaction that has a state runs its second part only if that part is upset. -/
theorem Attended.upset_of_begins (ff : s.FunctionFree) (T : m.Traced s D) (h : m.Attended s D)
    (it : s.program.tree.Iterates r n) (hb : m.begins s n = true)
    (hv : (s.cache.reusable? r).isSome) : s.Upset m.record n := by
  have o := ff.accepted.ordered
  simp only [begins, Bool.and_eq_true, beq_iff_eq] at hb
  obtain ⟨f, rest, k, hm, ha, hk⟩ : ∃ f rest k, m.frames = f :: rest ∧
      f.steps[f.cursor]? = some (.evaluate k) ∧ (s.program.tree.children f.node)[k]? = some n := by
    refine (entering?_cases hb.1).resolve_left fun ⟨_, hr⟩ => ?_
    have := o.parent_iff.2 it.child
    rw [hr, ff.root, ff.accepted.parent_root] at this
    cases this
  have hf : f ∈ m.frames := hm ▸ List.mem_cons_self
  have hnode : f.node = r := o.parent_unique (List.mem_of_getElem? hk) it.child
  have hcursor : f.cursor = 3 := by
    rw [T.stacked.steps f hf, hnode] at ha
    rw [hnode] at hk
    exact it.cursor_eq o ha hk
  have hreuse : s.reuse? m.record r = none := hnode ▸
    (h.informed f (by simp [hm])).reaction (hnode ▸ it.kind) (.inr hcursor)
  have known (b : NodeId) (hb : b ∈ s.program.analysis.dependencies n) : m.record.Knows b := by
    refine h.knows_dependency ff T hf ?_
    rw [hnode]
    rw [ff.program] at hb ⊢
    exact o.dependencies_part ff.tree it.child (by simp [it.kind]) hb
  have hvolatile : s.program.analysis.isVolatile r = false := by
    rw [ff.program]
    exact Tree.not_volatile_of_reaction o ff.tree it.kind
  have haffected : s.unaffected m.record n = false := by
    obtain ⟨first, hc⟩ := it.parts
    have hholds : s.holds m.record r = s.unaffected m.record n := by
      simp [Setting.holds, it.kindIs, hc]
    rw [Setting.reuse?, hvolatile, hholds] at hreuse
    cases hu : s.unaffected m.record n with
    | false => rfl
    | true =>
      rw [hu] at hreuse
      simp only [Bool.false_eq_true, if_false, if_true] at hreuse
      rw [hreuse] at hv
      cases hv
  unfold Setting.unaffected at haffected
  split at haffected
  · cases haffected
  · exact .inl ‹_›
  · rename_i hmark
    simp only [Bool.not_eq_eq_eq_not, Bool.not_false, List.any_eq_true] at haffected
    obtain ⟨b, hb, hc⟩ := haffected
    obtain ⟨c, hknown⟩ := Option.isSome_iff_exists.1 (known b hb)
    simp only [Setting.bindChanged, hknown] at hc
    subst hc
    exact .inr ⟨hmark, b, hb, h.notes.changed b hknown⟩

/-! ### Nodes that were found up to date -/

theorem cleaned_call {i j : NodeId} {x : ScopeId} (h : i ∈ m.record.cleaned) :
    i ∈ (m.call s j x).record.cleaned :=
  call_induction (I := (i ∈ ·.record.cleaned)) (fun _ => h) fun _ => h

theorem cleaned_enter {i j : NodeId} {x : ScopeId} (h : i ∈ m.record.cleaned) :
    i ∈ (m.enter s j x).record.cleaned := by
  unfold enter
  split
  · rw [record_handDown]
    exact (s.noteReuse_cleaned m.record j).symm ▸ by split <;> simp [h]
  · exact cleaned_call h

/-- What was found up to date stays noted. -/
theorem cleaned_invariant (s : Setting) (i : NodeId) : Invariant s (i ∈ ·.record.cleaned) where
  cutOff _ _ h := h
  enterRoot _ h := cleaned_enter h
  countStep _ h := h
  fail _ _ h := h
  moved m f rest a m' h _ _ moved := by
    cases moved with
    | failed | resumed | defined | opened => exact h
    | called => exact cleaned_call h
    | read => exact (fetch_record s m.record f.node _ _).2.1 ▸ h
    | entered => exact cleaned_enter h
    | @finished g _ v =>
      rw [record_handDown]
      exact (s.noteFinish_cleaned m.record g v) ▸ h

/-- A marked node that is found up to date is noted. -/
theorem cleaned_of_reuses {i : NodeId} (h : m.reuses s i = true) (hm : s.staleness.mark? i ≠ none) :
    i ∈ (m.tick s false).record.cleaned := by
  simp only [reuses, Bool.and_eq_true, beq_iff_eq] at h
  obtain ⟨he, hr⟩ := h
  obtain ⟨v, hv⟩ := Option.isSome_iff_exists.1 hr
  have entered (m' : Machine) (hm' : m'.record.bindsChanged = m.record.bindsChanged) (x : ScopeId) :
      i ∈ (m'.enter s i x).record.cleaned := by
    rw [enter, Setting.reuse?_congr hm', hv]
    simp only [record_handDown, setRecord, s.noteReuse_cleaned]
    have hclean : s.staleness.isClean i = false := by
      rw [Staleness.isClean, Option.isNone_eq_false_iff]
      exact Option.isSome_iff_ne_none.2 hm
    simp [hclean]
  unfold entering? at he
  unfold tick
  split at he
  · cases he
  split at he
  · rename_i hrunning hstarted
    obtain rfl := Option.some.inj he
    rw [if_neg hrunning, if_neg Bool.false_ne_true, if_pos hstarted]
    exact entered { (m.openScope s.globals).2 with started := true } rfl _
  split at he
  · cases he
  split at he
  · cases he
  · rename_i hrunning hstarted hbudget _ f rest hf
    split at he
    · rename_i k hk
      rw [if_neg hrunning, if_neg Bool.false_ne_true, if_neg hstarted, if_neg hbudget, step]
      have hf : (m.setRecord m.record.countStep).frames = f :: rest := hf
      simp only [hf, hk, execute, he]
      exact entered ((m.setRecord m.record.countStep).put { f with cursor := f.cursor + 1 } rest) rfl _
    · cases he

/-- So it is noted at the end of the run. -/
theorem cleaned_run_of_reuses {i : NodeId} {j k : Nat} (hr : (m.run s false j).reuses s i = true)
    (hm : s.staleness.mark? i ≠ none) (hk : (m.run s false k).isRunning = false) :
    i ∈ (m.run s false k).record.cleaned := by
  have hlt : j < k := by
    by_contra hle
    obtain ⟨d, rfl⟩ := Nat.exists_eq_add_of_le (Nat.le_of_not_lt hle)
    rw [run_add, run_of_ended hk] at hr
    simp [reuses, entering?, hk] at hr
  obtain ⟨d, rfl⟩ := Nat.exists_eq_add_of_lt hlt
  rw [Nat.add_right_comm, run_add, run_add, run_succ, run_zero]
  exact (cleaned_invariant s i).run (cleaned_of_reuses hr hm) false d

end Machine
end StreamLang
