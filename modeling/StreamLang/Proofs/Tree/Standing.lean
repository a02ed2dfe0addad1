import StreamLang.Proofs.Tree.Focus
/-!
Trees in which every pass comes to every reaction: no reaction lies in another one or in a branch of a
conditional. If besides nothing volatile is referred to or is a condition of a reaction, all nodes can be
followed (`Standing.focus`): those that are not volatile and not spent have values that do not depend on
the state around them.
-/
namespace StreamLang
namespace Tree

/-- A tree without functions in which every pass comes to every reaction. What is made of the state of
a reaction is used for the next state only: no name stands for it, and no condition of a reaction is. -/
structure Standing (t : Tree) : Prop where
  inPlace : t.InPlace
  references : ∀ i b, t.resolution? i = some (.bind b) → (Analysis.ofTree t).isVolatile b = false
  conditions : ∀ r a d c, t.kind? r = some .reaction → t.children r = [a, d, c] →
    (Analysis.ofTree t).isVolatile d = false
  alone : ∀ p r, t.kind? p = some .reaction → t.kind? r = some .reaction → t.Within p r → p = r
  first : ∀ p c r, t.kind? p = some .conditional → c ∈ t.children p → t.Within c r →
    t.kind? r = some .reaction → (t.children p).head? = some c

namespace Standing

variable {t : Tree} (st : t.Standing) {i r p b c d : NodeId}
include st

theorem ordered : t.Ordered := st.inPlace.ordered

/-- What lies around a reaction is not spent. -/
theorem not_spent_around (hr : t.kind? r = some .reaction) (hp : t.Within p r) : ¬ t.Spent p := by
  rintro ⟨q, first, rest, hq, hc, hw⟩
  have hfirst : first ∈ t.children q := by simp [hc]
  obtain rfl := st.alone q r hq hr ((Within.child hfirst).trans (hw.trans hp))
  exact st.ordered.not_within_parent hfirst (hw.trans hp)

/-- What lies around a reaction does not lie in one. -/
theorem not_volatile_around (hr : t.kind? r = some .reaction) (hp : t.Within p r) :
    (Analysis.ofTree t).isVolatile p = false := by
  have o := st.ordered
  by_cases hpr : p = r
  · subst hpr
    exact not_volatile_of_reaction o st.inPlace.isFunction hr
  refine Bool.eq_false_iff.2 fun hv => ?_
  have hlt : p < t.size := by
    rcases hp.cases_head with rfl | ⟨q, hq, -⟩
    · exact absurd rfl hpr
    · exact lt_size_of_mem_children hq
  obtain ⟨j, q, -, hq, hqp, hne, -⟩ := (isVolatile_iff o st.inPlace.isFunction hlt).1 hv
  obtain rfl := st.alone q r (enclosingReaction?_spec o hq).1 hr (hqp.trans hp)
  exact hne (o.within_antisymm hp hqp)

/-- Nothing in the parts of a reaction after the first is spent. -/
theorem not_spent_part {first j : NodeId} {rest : List NodeId} (hr : t.kind? r = some .reaction)
    (hc : t.children r = first :: rest) (hd : d ∈ rest) (hj : t.Within d j) : ¬ t.Spent j := by
  have o := st.ordered
  rintro ⟨q, first', rest', hq, hc', hw⟩
  have hdr : d ∈ t.children r := by simp [hc, hd]
  have hq' : first' ∈ t.children q := by simp [hc']
  obtain rfl : q = r := by
    rcases o.within_total ((Within.child hq').trans hw) ((Within.child hdr).trans hj) with h | h
    · exact st.alone q r hq hr h
    · exact (st.alone r q hr hq h).symm
  obtain ⟨rfl, rfl⟩ := List.cons.inj (hc.symm.trans hc')
  obtain rfl := o.sibling_eq hq' hdr hw hj
  have hnodup := o.nodup q
  rw [hc] at hnodup
  exact (List.nodup_cons.1 hnodup).1 hd

/-- A bind that a name stands for is no more spent than the node with the name. -/
theorem not_spent_bind (hr : t.resolution? i = some (.bind b)) (hi : ¬ t.Spent i) : ¬ t.Spent b := by
  have o := st.ordered
  obtain ⟨p, c, hp, hci⟩ := o.exists_precedes st.inPlace.isFunction hr
  have hblock : t.kind? p ≠ some .reaction := not_reaction_of_kind hp.block (by simp)
  intro hs
  exact hi ((spent_of_child o hp.mem_children hblock hs).within ((Within.child hp.later).trans hci))

/-- A node that is not volatile is no previous value of a reaction. -/
theorem still_of_not_volatile (hv : (Analysis.ofTree t).isVolatile i = false)
    (hk : t.kind? i ≠ some .reaction) : t.Still i := by
  intro k hi
  cases k
  case function parameters => simpa [Tree.isFunction, hi] using st.inPlace.isFunction i
  case call => exact absurd hi (st.inPlace.callFree i)
  case reaction => exact absurd hi hk
  case previous =>
    refine .inr ⟨rfl, Option.eq_none_iff_forall_ne_some.2 fun r hr => ?_⟩
    obtain ⟨-, hw, hne⟩ := enclosingReaction?_spec st.ordered hr
    refine Bool.eq_false_iff.1 hv ?_
    exact (isVolatile_iff st.ordered st.inPlace.isFunction (lt_size_of_kind hi)).2
      ⟨i, r, hi, hr, hw, hne.symm, .refl i⟩
  all_goals exact .inl rfl

/-- All nodes can be followed. -/
def focus : t.Focus where
  inPlace := st.inPlace
  steady i := (Analysis.ofTree t).isVolatile i = false ∧ ¬ t.Spent i
  known _ := True
  known_of_steady _ _ := trivial
  steady_or_spent i _ hv := by
    by_cases hs : t.Spent i
    · exact .inr hs
    · exact .inl ⟨hv, hs⟩
  unspent _ hi := hi.2
  still _ hi hk := st.still_of_not_volatile hi.1 hk
  child i m hi hk hm := by
    refine ⟨Bool.eq_false_iff.2 fun hv => ?_, fun hs => hi.2 (spent_of_child st.ordered hm hk hs)⟩
    exact Bool.eq_false_iff.1 hi.1 (isVolatile_of_child st.ordered st.inPlace.isFunction hm hk hv)
  bind i b hi hr := ⟨st.references i b hr, st.not_spent_bind hr hi.2⟩
  known_child _ _ _ _ := trivial
  known_bind _ _ _ _ := trivial
  enclosing _ _ _ _ _ := trivial
  reaction r _ hr := by
    have o := st.ordered
    refine ⟨⟨st.not_volatile_around hr (.refl r), st.not_spent_around hr (.refl r)⟩, ?_, ?_, ?_, ?_, ?_⟩
    · intro p hp hne
      exact ⟨⟨st.not_volatile_around hr hp, st.not_spent_around hr hp⟩,
        fun hk => hne (st.alone p r hk hr hp)⟩
    · exact fun p c hc hw hk => st.first p c r hk hc hw hr
    · exact fun i hi hne hk => hne (st.alone r i hr hk hi).symm
    · intro a d c hc
      exact ⟨st.conditions r a d c hr hc, st.not_spent_part hr hc (by simp) (.refl d)⟩
    · intro c hc b hb
      obtain ⟨j, hj, hres, -⟩ := (Analysis.mem_dependencies o).1 hb
      rw [checked_of_reaction hr] at hc
      cases hch : t.children r with
      | nil => simp [hch] at hc
      | cons first rest =>
        rw [hch] at hc
        exact ⟨st.references j b hres, st.not_spent_bind hres (st.not_spent_part hr hch hc hj)⟩
  around_spent _ _ _ _ _ := trivial

@[simp] theorem steady_focus :
    st.focus.steady i ↔ (Analysis.ofTree t).isVolatile i = false ∧ ¬ t.Spent i := .rfl

@[simp] theorem known_focus : st.focus.known i := trivial

end Standing
end Tree
end StreamLang
