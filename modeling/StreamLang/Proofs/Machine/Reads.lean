import StreamLang.Proofs.Machine.Once
import StreamLang.Proofs.Meaning
/-!
What a pass writes for the readers of streams is what their streams show in it, whatever committed
values are used on the way. Nothing is asked of conditionals here.
-/
namespace StreamLang

open Machine

/-- Stream readers that were written have the values that their streams show in the pass. -/
def Setting.Reads (s : Setting) (r : Record) : Prop :=
  ∀ i w n stream, (i, w) ∈ r.writes → s.program.tree.Working i n → n.kind = .stream stream →
    w.value = (s.world .empty).reading i stream .latest

namespace Setting.Reads

variable {s : Setting} {r r' : Record}

theorem empty : s.Reads .empty := by
  intro i w n stream hm
  cases hm

theorem of_writes (h : s.Reads r) (hw : r'.writes = r.writes) : s.Reads r' := by
  intro i w n stream hm
  rw [hw] at hm
  exact h i w n stream hm

theorem finish (h : s.Reads r) {f : Frame} {v : Value}
    (hv : ∀ n stream, s.program.tree.Working f.node n → n.kind = .stream stream →
      v = (s.world .empty).reading f.node stream .latest) : s.Reads (s.noteFinish r f v) := by
  intro i w n stream hm hw hk
  rw [s.noteFinish_writes] at hm
  rcases Assoc.mem_of_mem_put hm with hm | hm
  · cases hm
    exact hv n stream hw hk
  · exact h i w n stream hm hw hk

end Setting.Reads

namespace Machine

variable {s : Setting} {P : NodeId → Value → Prop} {t : Tree} {x : ScopeId} {v : Value}
  {version : Option Nat} {σ σ' : State}

/-- Entering a node of a plain tree writes what streams show. -/
theorem Enters.reads (ht : s.program.tree = t) (plain : t.Plain) {i : NodeId} (hi : i < t.size)
    (h : Enters s (Completes s P) i x σ v version σ') (hr : s.Reads σ.record) : s.Reads σ'.record := by
  induction i using Nat.strong_induction_on generalizing x σ v version σ' with
  | _ i ih =>
    unfold Enters at h
    split at h
    · obtain ⟨rfl, rfl, rfl⟩ := h
      exact hr.of_writes (s.noteReuse_writes σ.record i)
    replace h := completes_iff.1 h.2
    have entered : s.Reads (σ.enter i).record := hr.of_writes rfl
    -- a node that reads no stream may finish with any value
    have other {σ₁ : State} {u : Value} (h₁ : s.Reads σ₁.record)
        (hk : ∀ n stream, t.Working i n → n.kind ≠ .stream stream) :
        s.Reads (σ₁.finish s i version u).record :=
      h₁.finish fun n stream hw hs => absurd hs (hk n stream (ht ▸ hw))
    rcases Tree.fault_or_working (Tree.lt_size_iff.1 hi) with ⟨kind, message, hf⟩ | ⟨n, hw⟩
    · obtain ⟨-, rfl, rfl, rfl⟩ := (follows_fault (ht ▸ hf)).1 h
      refine other entered fun n stream hw _ => ?_
      rw [hw.fault?_eq_none] at hf
      cases hf
    have hw' : s.program.tree.Working i n := ht ▸ hw
    have ofKind (hk : ∀ stream, n.kind ≠ .stream stream) (m : Node) (stream : String)
        (hm : t.Working i m) : m.kind ≠ .stream stream := hw.unique hm ▸ hk stream
    by_cases hread : ∃ stream, n.kind = .stream stream
    · obtain ⟨stream, hk⟩ := hread
      have hread : reads? n.kind = some (stream, .latest) := by rw [hk]; rfl
      obtain ⟨-, rfl, rfl, rfl⟩ := (follows_read hw' hread).1 h
      refine Setting.Reads.finish (entered.of_writes (fetch_record s _ i stream .latest).1) ?_
      intro m name hm hs
      rw [hw'.unique hm, hk] at hs
      cases hs
      exact fetch_value s .empty _ i stream .latest
    have hcall : n.kind ≠ .call := fun hk => plain.kind_ne rfl i (hw.kind.trans (by rw [hk]))
    have child (c : NodeId) (hc : c ∈ n.children) {y : ScopeId} {τ τ' : State} {u : Value}
        {versionC : Option Nat} (he : Enters s (Completes s P) c y τ u versionC τ')
        (hτ : s.Reads τ.record) : s.Reads τ'.record :=
      have hlt := plain.ordered.child_lt (hw.children ▸ hc)
      ih c hlt (Nat.lt_trans hlt hi) he hτ
    obtain ⟨τ, hτ, rfl⟩ := h.finishes (C := fun τ => s.Reads τ.record) hw' hcall
      (fun c hc _ _ _ _ _ => child c hc) (fun hsame hr => hr.of_writes hsame) entered
    exact other hτ (ofKind fun stream hs => hread ⟨stream, hs⟩)

end Machine
end StreamLang
