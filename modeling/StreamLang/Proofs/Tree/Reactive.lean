import StreamLang.Proofs.Tree.Plain
import StreamLang.Proofs.Tree.Volatile
/-!
Trees with one reaction and without functions and calls. A previous value below the reaction is its
own, and a node below it is volatile if and only if such a value lies in it.
-/
namespace StreamLang
namespace Tree

/-- The node `i` lies below `r`. -/
def Below (t : Tree) (r i : NodeId) : Prop := t.Within r i ∧ i ≠ r

/-- The one reaction of a tree works. All other nodes are plain or previous values. -/
structure Reactive (t : Tree) (r : NodeId) (n : Node) : Prop where
  accepted : t.Accepted
  working : t.Working r n
  kind : n.kind = .reaction
  kinds : ∀ i k, t.kind? i = some k → i ≠ r → k.isPlain = true ∨ k = .previous

variable {t : Tree} {r i c : NodeId} {n : Node}

/-- The reaction has two parts or three. -/
theorem Reactive.children_cases (rx : t.Reactive r n) :
    (∃ a b, n.children = [a, b]) ∨ ∃ a b c, n.children = [a, b, c] := by
  have hfits := rx.working.fits
  rw [rx.kind] at hfits
  simp only [fits, Bool.or_eq_true, beq_iff_eq] at hfits
  exact hfits.imp List.length_eq_two.1 List.length_eq_three.1

namespace Reactive

variable (rx : t.Reactive r n)
include rx

theorem ordered : t.Ordered := rx.accepted.ordered

theorem kind_reaction : t.kind? r = some .reaction := rx.working.kind.trans (by rw [rx.kind])

/-- There are no kinds but plain ones, previous values and the reaction. -/
theorem kind_ne {k : NodeKind} (hp : k.isPlain = false) (h : k ≠ .previous) (hr : k ≠ .reaction)
    (i : NodeId) : t.kind? i ≠ some k := fun hk => by
  by_cases hi : i = r
  · subst hi
    rw [rx.kind_reaction] at hk
    exact hr (Option.some.inj hk).symm
  · rcases rx.kinds i k hk hi with hk | hk
    · simp [hk] at hp
    · exact h hk

theorem isFunction (i : NodeId) : t.isFunction i = false := by
  unfold Tree.isFunction
  split
  · rename_i h
    exact absurd h (rx.kind_ne rfl (by simp) (by simp) i)
  · rfl

theorem below_within {j : NodeId} (h : t.Below r i) (hw : t.Within i j) : t.Below r j := by
  refine ⟨h.1.trans hw, fun he => ?_⟩
  subst he
  exact h.2 (rx.ordered.within_antisymm hw h.1)

theorem below_child (h : t.Below r i) (hc : c ∈ t.children i) : t.Below r c :=
  rx.below_within h (.child hc)

theorem lt_size (h : t.Below r i) : i < t.size := by
  rcases h.1.cases_tail with rfl | ⟨p, -, hp⟩
  · exact absurd rfl h.2
  · exact rx.ordered.child_lt_size hp

/-- The parent of a node below the reaction is the reaction or lies below it as well. -/
theorem parent_cases {p : NodeId} (h : t.Below r i) (hp : i ∈ t.children p) :
    p = r ∨ t.Below r p := by
  rcases h.1.cases_tail with rfl | ⟨q, hq, hi⟩
  · exact absurd rfl h.2
  · obtain rfl := rx.ordered.parent_unique hp hi
    by_cases hr : p = r
    · exact .inl hr
    · exact .inr ⟨hq, hr⟩

theorem kind_ne_of_ne (h : i ≠ r) : t.kind? i ≠ some .reaction := fun hk => by
  rcases rx.kinds i _ hk h with h | h <;> cases h

/-- A previous value below the reaction is its own. -/
theorem enclosingReaction?_eq (h : t.Below r i) : t.enclosingReaction? i = some r := by
  obtain ⟨hw, hne⟩ := h
  unfold enclosingReaction?
  induction hw with
  | refl => exact absurd rfl hne
  | tail hp hc ih =>
    rename_i p c
    rw [rx.ordered.ancestors_child hc, List.find?_cons]
    rcases rx.parent_cases ⟨hp.tail hc, hne⟩ hc with rfl | hb
    · simp [rx.kind_reaction]
    · have hk : (t.kind? p == some .reaction) = false := by simpa using rx.kind_ne_of_ne hb.2
      rw [hk]
      exact ih hb.2

/-- Below the reaction just those nodes are volatile that a previous value lies in. -/
theorem isVolatile_iff (h : t.Below r i) : (Analysis.ofTree t).isVolatile i = true ↔
    ∃ j, t.kind? j = some .previous ∧ t.Within i j := by
  rw [Tree.isVolatile_iff rx.ordered rx.isFunction (rx.lt_size h)]
  constructor
  · rintro ⟨j, -, hk, -, -, -, hij⟩
    exact ⟨j, hk, hij⟩
  · rintro ⟨j, hk, hij⟩
    exact ⟨j, r, hk, rx.enclosingReaction?_eq (rx.below_within h hij), h.1, h.2, hij⟩

end Reactive
end Tree
end StreamLang
