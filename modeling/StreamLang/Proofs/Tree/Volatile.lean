import StreamLang.Proofs.Tree.Dependencies
/-!
Volatile nodes of trees without functions: those that a previous value lies in, up to the reaction that
it belongs to.
-/
namespace StreamLang
namespace Tree

variable {t : Tree} {r i c j : NodeId}

/-- A reaction that is found above a node is a reaction, and the node lies below it. -/
theorem enclosingReaction?_spec (o : t.Ordered) (h : t.enclosingReaction? i = some r) :
    t.kind? r = some .reaction ∧ t.Within r i ∧ r ≠ i :=
  ⟨by simpa using List.find?_some h, o.mem_ancestors.1 (List.mem_of_find?_eq_some h)⟩

/-- Going up from a node below `r`, one comes to all nodes around it below `r` before `r`. -/
theorem mem_takeWhile_ancestors (o : t.Ordered) (hj : t.Within r j) (hne : r ≠ j) :
    i ∈ (t.ancestors j).takeWhile (· != r) ↔ t.Within r i ∧ i ≠ r ∧ t.Within i j ∧ i ≠ j := by
  induction hj with
  | refl => exact absurd rfl hne
  | tail hp hc ih =>
    rename_i p c
    have above (h : t.Within i c) (hic : i ≠ c) : t.Within i p := by
      rcases h.cases_tail with rfl | ⟨q, hq, hcq⟩
      · exact absurd rfl hic
      · exact o.parent_unique hc hcq ▸ hq
    have off (h : t.Within i p) : t.Within i c ∧ i ≠ c :=
      ⟨h.tail hc, fun hic => o.not_within_parent hc (hic ▸ h)⟩
    rw [o.ancestors_child hc]
    by_cases hpr : p = r
    · subst hpr
      simp only [List.takeWhile_cons, bne_self_eq_false, Bool.false_eq_true, if_false, List.not_mem_nil,
        false_iff]
      rintro ⟨hri, hne, hic, hne'⟩
      exact hne (o.within_antisymm (above hic hne') hri)
    · rw [List.takeWhile_cons_of_pos (by simpa using hpr), List.mem_cons, ih (Ne.symm hpr)]
      constructor
      · rintro (rfl | ⟨hri, hir, hip, -⟩)
        · exact ⟨hp, hpr, off (.refl i)⟩
        · exact ⟨hri, hir, off hip⟩
      · rintro ⟨hri, hir, hic, hne'⟩
        by_cases hip : i = p
        · exact .inl hip
        · exact .inr ⟨hri, hir, above hic hne', hip⟩

/-- On the path of a previous value lie the nodes around it below its reaction. -/
theorem mem_previousPath (o : t.Ordered) : i ∈ t.previousPath j ↔ t.kind? j = some .previous ∧
    ∃ r, t.enclosingReaction? j = some r ∧ t.Within r i ∧ i ≠ r ∧ t.Within i j := by
  unfold previousPath
  split
  · rename_i r hk hr
    obtain ⟨-, hrj, hne⟩ := enclosingReaction?_spec o hr
    rw [List.mem_cons, mem_takeWhile_ancestors o hrj hne]
    constructor
    · rintro (rfl | ⟨hri, hir, hij, -⟩)
      · exact ⟨hk, r, hr, hrj, hne.symm, .refl i⟩
      · exact ⟨hk, r, hr, hri, hir, hij⟩
    · rintro ⟨-, r', hr', hri, hir, hij⟩
      obtain rfl := Option.some.inj (hr.symm.trans hr')
      by_cases h : i = j
      · exact .inl h
      · exact .inr ⟨hri, hir, hij, h⟩
  · rename_i h
    simp only [List.not_mem_nil, false_iff]
    rintro ⟨hk, r, hr, -⟩
    exact h r hk hr

/-- Outside of functions just those nodes are volatile that lie on such a path. -/
theorem isVolatile_iff (o : t.Ordered) (hf : ∀ i, t.isFunction i = false) (hi : i < t.size) :
    (Analysis.ofTree t).isVolatile i = true ↔ ∃ j r, t.kind? j = some .previous ∧
      t.enclosingReaction? j = some r ∧ t.Within r i ∧ i ≠ r ∧ t.Within i j := by
  have hany : (t.ancestors i).any t.isFunction = false :=
    List.any_eq_false.2 fun j _ => by simp [hf j]
  have hlist : (Analysis.ofTree t).isVolatile i = (t.ids.flatMap t.previousPath).contains i := by
    simp only [Analysis.isVolatile, Analysis.ofTree, Tree.ids, Array.getD_eq_getD_getElem?]
    simp [hi, hany]
  rw [hlist, List.contains_iff_mem, List.mem_flatMap]
  constructor
  · rintro ⟨j, -, hj⟩
    obtain ⟨hk, r, hr⟩ := (mem_previousPath o).1 hj
    exact ⟨j, r, hk, hr⟩
  · rintro ⟨j, r, hk, hr⟩
    exact ⟨j, List.mem_range.2 (lt_size_of_kind hk), (mem_previousPath o).2 ⟨hk, r, hr⟩⟩

/-- What lies around a volatile node is volatile, up to the reaction. -/
theorem isVolatile_of_child (o : t.Ordered) (hf : ∀ i, t.isFunction i = false) {p : NodeId}
    (hc : c ∈ t.children p) (hp : t.kind? p ≠ some .reaction)
    (hv : (Analysis.ofTree t).isVolatile c = true) : (Analysis.ofTree t).isVolatile p = true := by
  obtain ⟨j, r, hk, hr, hrc, hne, hcj⟩ := (isVolatile_iff o hf (o.child_lt_size hc)).1 hv
  rcases hrc.cases_tail with rfl | ⟨q, hq, hcq⟩
  · exact absurd rfl hne
  · obtain rfl := o.parent_unique hc hcq
    refine (isVolatile_iff o hf (lt_size_of_mem_children hc)).2 ⟨j, r, hk, hr, hq, ?_, (Within.child hc).trans hcj⟩
    rintro rfl
    exact hp (enclosingReaction?_spec o hr).1

/-- Outside of functions a reaction is not volatile: the way up from a previous value ends below the
first reaction on it. -/
theorem not_volatile_of_reaction (o : t.Ordered) (hf : ∀ i, t.isFunction i = false)
    (hr : t.kind? r = some .reaction) : (Analysis.ofTree t).isVolatile r = false := by
  refine Bool.eq_false_iff.2 fun hv => ?_
  obtain ⟨j, q, hk, hq, hqr, hne, hrj⟩ := (isVolatile_iff o hf (lt_size_of_kind hr)).1 hv
  obtain ⟨-, before, after, hsplit, hbefore⟩ := List.find?_eq_some_iff_append.1 hq
  obtain ⟨-, hqj, hqne⟩ := enclosingReaction?_spec o hq
  have hrne : r ≠ j := by
    rintro rfl
    rw [hr] at hk
    cases hk
  have hmem := (mem_takeWhile_ancestors o hqj hqne).2 ⟨hqr, hne, hrj, hrne⟩
  rw [hsplit, List.takeWhile_append] at hmem
  have hin : r ∈ before := by
    split at hmem
    · simpa using hmem
    · exact (List.takeWhile_sublist _).subset hmem
  simpa [hr] using hbefore r hin

end Tree
end StreamLang
