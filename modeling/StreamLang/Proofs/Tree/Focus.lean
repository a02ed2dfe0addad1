import StreamLang.Proofs.Tree.Stateless
import StreamLang.Proofs.Tree.Volatile
/-!
Which nodes are followed through a session. The value of a steady node depends on no earlier state, or
it is the state itself; what was committed for it may stand in for an evaluation. Of a node that is
merely known, the value in a pass is told, once that pass has come to it. In any tree without functions
one may follow the stateless nodes and leave reactions out of account (`Focus.stateless`).
-/
namespace StreamLang
namespace Tree

/-- A reaction that a pass does not pass by. It lies in no other reaction and in no branch of a
conditional, and neither its condition nor the binds that its parts depend on need a state. -/
structure Posted (t : Tree) (steady : NodeId → Prop) (r : NodeId) : Prop where
  around : ∀ p, t.Within p r → p ≠ r → steady p ∧ t.kind? p ≠ some .reaction
  first : ∀ p c, c ∈ t.children p → t.Within c r → t.kind? p = some .conditional →
    (t.children p).head? = some c
  below : ∀ i, t.Within r i → i ≠ r → t.kind? i ≠ some .reaction
  condition : ∀ a d c, t.children r = [a, d, c] → steady d
  depends : ∀ c ∈ t.checked r, ∀ b ∈ (Analysis.ofTree t).dependencies c, steady b

/-- The nodes of a tree without functions that are followed. -/
structure Focus (t : Tree) where
  inPlace : t.InPlace
  steady : NodeId → Prop
  known : NodeId → Prop
  known_of_steady : ∀ i, steady i → known i
  steady_or_spent : ∀ i, known i → (Analysis.ofTree t).isVolatile i = false → steady i ∨ t.Spent i
  unspent : ∀ i, steady i → ¬ t.Spent i
  still : ∀ i, steady i → t.kind? i ≠ some .reaction → t.Still i
  child : ∀ i m, steady i → t.kind? i ≠ some .reaction → m ∈ t.children i → steady m
  bind : ∀ i b, steady i → t.resolution? i = some (.bind b) → steady b
  known_child : ∀ i m, known i → m ∈ t.children i → known m
  known_bind : ∀ i b, known i → t.resolution? i = some (.bind b) → known b
  enclosing : ∀ i r, known i → t.kind? i = some .previous → t.enclosingReaction? i = some r → known r
  reaction : ∀ r, known r → t.kind? r = some .reaction → steady r ∧ t.Posted steady r
  around_spent : ∀ r j, t.kind? r = some .reaction → known j → t.Spent j → known r

variable {t : Tree} {i j m b c r : NodeId} {n : Node}

/-- A reaction that is followed. -/
structure Focus.Reacts (f : t.Focus) (r : NodeId) (n : Node) : Prop where
  known : f.known r
  working : t.Working r n
  kind : n.kind = .reaction

theorem kindIs_reaction : t.kindIs (· == .reaction) i = true ↔ t.kind? i = some .reaction := by
  unfold kindIs
  cases t.kind? i <;> simp

theorem checked_of_reaction (h : t.kind? i = some .reaction) : t.checked i = (t.children i).drop 1 := by
  rw [checked, if_pos (kindIs_reaction.2 h)]

theorem checked_of_ne (h : t.kind? i ≠ some .reaction) : t.checked i = [i] := by
  rw [checked, if_neg fun hk => h (kindIs_reaction.1 hk)]

theorem Decides.not_reaction {V : NodeId → Value} (h : t.Decides V i m) :
    t.kind? i ≠ some .reaction := by
  obtain ⟨n, hw, hk, -⟩ := h
  rw [hw.kind]
  simpa using hk

theorem Decides.mem_children {V : NodeId → Value} (h : t.Decides V i m) : m ∈ t.children i := by
  obtain ⟨n, hw, -, hm, -⟩ := h
  exact hw.children ▸ hm

namespace Focus

/-- Stateless nodes depend on one another only, and there is no reaction among them. -/
def stateless (h : t.InPlace) : t.Focus where
  inPlace := h
  steady := t.Stateless
  known := t.Stateless
  known_of_steady _ hi := hi
  steady_or_spent _ hi _ := .inl hi
  unspent _ hi := hi.unspent
  still _ hi _ := hi.self
  child _ _ hi _ hm := hi.child h hm
  bind _ _ hi hr := hi.bind h hr
  known_child _ _ hi hm := hi.child h hm
  known_bind _ _ hi hr := hi.bind h hr
  enclosing i r hi hk hr := by
    rcases hi.self _ hk with hp | ⟨-, hn⟩
    · cases hp
    · rw [hn] at hr
      cases hr
  reaction r hr hk := absurd hk hr.self.kind_ne_reaction
  around_spent _ j _ hj hs := absurd hs hj.unspent

@[simp] theorem steady_stateless {h : t.InPlace} : (stateless h).steady i ↔ t.Stateless i := .rfl

@[simp] theorem known_stateless {h : t.InPlace} : (stateless h).known i ↔ t.Stateless i := .rfl

theorem not_reacts_stateless {h : t.InPlace} : ¬ (stateless h).Reacts r n := fun hr =>
  hr.known.self.kind_ne_reaction (by rw [hr.working.kind, hr.kind])

theorem ordered (f : t.Focus) : t.Ordered := f.inPlace.ordered

theorem isFunction (f : t.Focus) (i : NodeId) : t.isFunction i = false := f.inPlace.isFunction i

variable (f : t.Focus)

theorem of_decides {V : NodeId → Value} (h : f.steady i) (hd : t.Decides V i m) : f.steady m :=
  f.child i m h hd.not_reaction hd.mem_children

/-- A steady node that is no reaction is as good as stateless by itself. -/
theorem still_of_working (h : f.steady i) (hw : t.Working i n) (hk : n.kind ≠ .reaction) :
    n.kind.isPlain = true ∨ n.kind = .previous ∧ t.enclosingReaction? i = none := by
  refine (f.still i h ?_).working hw
  rw [hw.kind]
  simpa using hk

namespace Reacts

variable {f} (h : f.Reacts r n)
include h

theorem kind? : t.kind? r = some .reaction := by rw [h.working.kind, h.kind]

theorem steady : f.steady r := (f.reaction r h.known h.kind?).1

theorem posted : t.Posted f.steady r := (f.reaction r h.known h.kind?).2

theorem not_volatile : (Analysis.ofTree t).isVolatile r = false :=
  not_volatile_of_reaction f.ordered f.isFunction h.kind?

theorem unique {n' : Node} (h' : f.Reacts r n') : n' = n := h.working.unique h'.working

/-- The reaction has two parts or three. -/
theorem children_cases : (∃ a c, n.children = [a, c]) ∨ ∃ a d c, n.children = [a, d, c] := by
  have hfits := h.working.fits
  rw [h.kind] at hfits
  simp only [fits, Bool.or_eq_true, beq_iff_eq] at hfits
  exact hfits.imp List.length_eq_two.1 List.length_eq_three.1

theorem checked_eq : t.checked r = n.children.drop 1 := by
  rw [checked_of_reaction h.kind?, h.working.children]

theorem mem_children_of_checked (hc : c ∈ t.checked r) : c ∈ t.children r := by
  rw [checked_of_reaction h.kind?] at hc
  exact List.mem_of_mem_drop hc

/-- Nothing in the parts after the first is spent. -/
theorem not_spent_part (hc : c ∈ t.checked r) (hj : t.Within c j) : ¬ t.Spent j := by
  have o := f.ordered
  have hcr := h.mem_children_of_checked hc
  rintro ⟨r', first, rest, hk, hr', hw⟩
  have hrj : t.Within r j := (Within.child hcr).trans hj
  have hfirst : first ∈ t.children r' := by simp [hr']
  have hrj' : t.Within r' j := (Within.child hfirst).trans hw
  by_cases he : r' = r
  · subst he
    have hnodup := o.nodup r'
    obtain rfl := o.sibling_eq hfirst hcr hw hj
    rw [checked_of_reaction hk, hr'] at hc
    rw [hr'] at hnodup
    exact (List.nodup_cons.1 hnodup).1 hc
  · rcases o.within_total hrj hrj' with hin | hin
    · exact h.posted.below r' hin he hk
    · exact (h.posted.around r' hin he).2 hk

/-- A bind that a part of the reaction depends on stands before the reaction. -/
theorem exists_precedes (hc : c ∈ t.checked r) (hb : b ∈ (Analysis.ofTree t).dependencies c) :
    ∃ p e, t.Precedes p b e ∧ t.Within e r ∧ t.kindIs NodeKind.isBind b = true := by
  have hblock : t.kind? r ≠ some .block := by simp [h.kind?]
  exact f.ordered.exists_precedes_of_dependency f.isFunction
    (f.ordered.dependencies_part f.isFunction (h.mem_children_of_checked hc) hblock hb)

end Reacts
end Focus
end Tree
end StreamLang
