import StreamLang.Proofs.Machine.Kinds
import StreamLang.Proofs.Tree.Dependencies
/-!
Plain trees have no functions, no calls and no reactions with their previous values. An evaluation comes
to a node only if everything around it works.
-/
namespace StreamLang

namespace NodeKind

/-- Whether a node of the kind is no part of a function, of a call or of a reaction. -/
def isPlain : NodeKind → Bool
  | function _ | call | reaction | previous => false
  | _ => true

end NodeKind

namespace Draft

/-- The root lies on top of everything. -/
theorem finish_root {d : Draft} {body : NodeId} {t : Tree} (h : d.finish body = .ok t) :
    t.size = t.root + 1 := by
  obtain ⟨owners, -, -, rfl⟩ := finish_eq_ok_iff.1 h
  simp [Tree.size, rooted]

end Draft

namespace Tree

/-- A tree as it is built, of plain kinds only. -/
structure Plain (t : Tree) : Prop where
  built : ∃ d body, Draft.finish d body = .ok t
  kinds : ∀ i k, t.kind? i = some k → k.isPlain = true

/-- No node calls anything. -/
def CallFree (t : Tree) : Prop := ∀ i, t.kind? i ≠ some .call

/-- No conditional depends on a bind outside of it. -/
def Selfcontained (t : Tree) : Prop :=
  ∀ i, t.kind? i = some .conditional → (Analysis.ofTree t).dependencies i = []

instance (t : Tree) : Decidable t.Selfcontained :=
  decidable_of_iff (∀ i ∈ t.ids, t.kind? i = some .conditional →
      (Analysis.ofTree t).dependencies i = []) <| by
    refine ⟨fun h i hi => h i (List.mem_range.2 (lt_size_of_kind hi)) hi, fun h i _ => h i⟩

/-- Everything around a node works, so an evaluation can come to it. -/
def Live (t : Tree) (i : NodeId) : Prop :=
  ∀ p, t.Within p i → p ≠ i → ∃ n, t.Working p n

variable {t : Tree}

theorem Live.child {p c : NodeId} {n : Node} (o : t.Ordered) (h : t.Live p) (hw : t.Working p n)
    (hc : c ∈ t.children p) : t.Live c := by
  intro q hq hne
  rcases hq.cases_tail with rfl | ⟨p', hq, hc'⟩
  · exact absurd rfl hne
  · obtain rfl := o.parent_unique hc hc'
    by_cases h' : q = p
    · exact ⟨n, h' ▸ hw⟩
    · exact h q hq h'

theorem Accepted.root_lt (h : t.Accepted) : t.root < t.size := by
  obtain ⟨d, body, h⟩ := h
  rw [Draft.finish_root h]
  exact Nat.lt_succ_self _

theorem Accepted.parent_root (h : t.Accepted) : t.parent? t.root = none := by
  have o := h.ordered
  obtain ⟨d, body, h⟩ := h
  cases hp : t.parent? t.root with
  | none => rfl
  | some p =>
    have hc := o.parent_iff.1 hp
    have hlt : t.root < p := o.child_lt hc
    have hs : p < t.size := lt_size_of_mem_children hc
    rw [Draft.finish_root h] at hs
    exact absurd (Nat.le_of_lt_succ hs) (Nat.not_le.2 hlt)

theorem Accepted.live_root (h : t.Accepted) : t.Live t.root := by
  intro p hp hne
  rcases hp.cases_tail with rfl | ⟨q, -, hc⟩
  · exact absurd rfl hne
  · have := h.ordered.parent_iff.2 hc
    rw [h.parent_root] at this
    cases this

namespace Plain

theorem of_all {d : Draft} {body : NodeId} (h : d.finish body = .ok t)
    (hk : t.nodes.all (·.kind.isPlain) = true) : t.Plain := by
  refine ⟨⟨d, body, h⟩, fun i k hi => ?_⟩
  obtain ⟨n, hn, rfl⟩ := Option.map_eq_some_iff.1 hi
  exact Array.all_eq_true'.1 hk n (Array.mem_of_getElem? hn)

variable (plain : t.Plain)
include plain

theorem ordered : t.Ordered := by
  obtain ⟨d, body, h⟩ := plain.built
  exact Draft.finish_ordered h

theorem accepted : t.Accepted := plain.built

theorem root_lt : t.root < t.size := plain.accepted.root_lt

theorem working_isPlain {i : NodeId} {n : Node} (h : t.Working i n) : n.kind.isPlain = true :=
  plain.kinds i n.kind h.kind

theorem isFunction (i : NodeId) : t.isFunction i = false := by
  unfold Tree.isFunction
  split
  · rename_i h
    have := plain.kinds i _ h
    simp [NodeKind.isPlain] at this
  · rfl

theorem kind_ne {k : NodeKind} (h : k.isPlain = false) (i : NodeId) : t.kind? i ≠ some k :=
  fun hk => by simp [plain.kinds i k hk] at h

theorem callFree : t.CallFree := plain.kind_ne rfl

end Plain
end Tree
end StreamLang
