import StreamLang.Proofs.Tree.Names
/-!
The analysis of a tree says what it is meant to say: what refers to a bind, which binds outside of a
node are referred to from within, which nodes read a stream and which have to run whenever they are
reached.
-/
namespace StreamLang

variable {t : Tree}

theorem Tree.lt_size_of_kind {i : Nat} {k : NodeKind} (h : t.kind? i = some k) : i < t.size := by
  rw [Tree.lt_size_iff]
  cases hn : t.node? i <;> simp [Tree.kind?, hn] at h ⊢

theorem Tree.lt_size_of_resolution {r : Nat} {x : Resolution} (h : t.resolution? r = some x) :
    r < t.size := by
  obtain ⟨name, hk, -⟩ := Tree.resolution?_eq_some h
  exact Tree.lt_size_of_kind hk

namespace Analysis

theorem resolutions_getElem? (i : Nat) :
    (ofTree t).resolutions[i]? = if i < t.size then some (t.resolution? i) else none := by
  simp only [ofTree, Tree.ids, List.getElem?_toArray, List.getElem?_map]
  by_cases h : i < t.size <;> simp [h]

/-- What the analysis has found a reference to refer to. -/
theorem resolution?_ofTree (i : NodeId) : (ofTree t).resolution? i = t.resolution? i := by
  rw [resolution?, Array.getD_eq_getD_getElem?, resolutions_getElem?]
  split
  · rfl
  · rename_i hi
    cases h : t.resolution? i with
    | none => rfl
    | some r => exact absurd (Tree.lt_size_of_resolution h) hi

theorem foldl_addReferrer {resolutions : Array (Option Resolution)} (ids : List NodeId)
    (m : NodeMap (List NodeId)) (b : NodeId) :
    ((ids.foldl (addReferrer resolutions) m)[b]?).getD [] =
      (m[b]?).getD [] ++ ids.filter fun r => resolutions[r]? == some (some (.bind b)) := by
  induction ids generalizing m with
  | nil => simp
  | cons i rest ih =>
    rw [List.foldl_cons, ih, addReferrer]
    split
    · rename_i b' hb
      by_cases hbb : b' = b
      · subst hbb
        simp [hb]
      · simp [Std.ExtTreeMap.getElem?_insert, hb, hbb]
    · rename_i hb
      have : (resolutions[i]? == some (some (Resolution.bind b))) = false := by
        simpa using hb b
      simp [this]

/-- What refers to a bind, in the order of the nodes. -/
theorem referrersOf_eq (b : NodeId) :
    (ofTree t).referrersOf b = t.ids.filter fun r => t.resolution? r == some (.bind b) := by
  have h : (ofTree t).referrers = t.ids.foldl (addReferrer (ofTree t).resolutions) ∅ := rfl
  rw [referrersOf, h, foldl_addReferrer]
  simp only [Std.ExtTreeMap.getElem?_empty, Option.getD_none, List.nil_append]
  refine List.filter_congr fun r hr => ?_
  simp [resolutions_getElem?, List.mem_range.1 hr]

/-- What refers to a bind is exactly the references that mean it. -/
theorem mem_referrersOf {b r : NodeId} :
    r ∈ (ofTree t).referrersOf b ↔ t.resolution? r = some (.bind b) := by
  rw [referrersOf_eq, List.mem_filter, beq_iff_eq]
  exact ⟨And.right, fun h => ⟨List.mem_range.2 (Tree.lt_size_of_resolution h), h⟩⟩

/-- Reading the dependencies of the nodes below a number does not need those above it. -/
theorem dependencies_prefix (n : Nat) :
    ((List.range n).foldl (fun below i => below.push (t.dependenciesFrom below i)) #[]).size = n := by
  induction n with
  | zero => rfl
  | succ n ih => simp [List.range_succ, ih]

theorem dependencies_stable {n m i : Nat} (hi : i < n) (h : n ≤ m) :
    ((List.range m).foldl (fun below i => below.push (t.dependenciesFrom below i)) #[]).getD i [] =
    ((List.range n).foldl (fun below i => below.push (t.dependenciesFrom below i)) #[]).getD i []
      := by
  induction m with
  | zero => omega
  | succ m ih =>
    by_cases he : n = m + 1
    · rw [he]
    · rw [← ih (by omega), List.range_succ, List.foldl_append, List.foldl_cons, List.foldl_nil]
      have hs := dependencies_prefix (t := t) m
      rw [Array.getD_eq_getD_getElem?, Array.getD_eq_getD_getElem?,
        Array.getElem?_push_lt (by omega), Array.getElem?_eq_getElem (by omega)]

theorem mem_addDependencies (o : t.Ordered) (i : NodeId) (found more : List NodeId) (b : NodeId) :
    b ∈ t.addDependencies i found more ↔ b ∈ found ∨ (b ∈ more ∧ ¬ t.Within i b) := by
  unfold Tree.addDependencies
  induction more generalizing found with
  | nil => simp
  | cons d rest ih =>
    rw [List.foldl_cons, ih]
    by_cases hw : t.Within i d
    · have hw' := o.isAncestorOrSelf_iff.2 hw
      simp only [hw', Bool.or_true, if_true, List.mem_cons]
      constructor
      · rintro (h | ⟨h, hn⟩)
        · exact .inl h
        · exact .inr ⟨.inr h, hn⟩
      · rintro (h | ⟨rfl | h, hn⟩)
        · exact .inl h
        · exact absurd hw hn
        · exact .inr ⟨h, hn⟩
    · have hw' : t.isAncestorOrSelf i d = false := by
        rw [Bool.eq_false_iff]
        exact fun h => hw (o.isAncestorOrSelf_iff.1 h)
      by_cases hc : d ∈ found
      · simp only [List.contains_iff_mem, hc, hw', Bool.or_false, if_true, List.mem_cons]
        constructor
        · rintro (h | ⟨h, hn⟩)
          · exact .inl h
          · exact .inr ⟨.inr h, hn⟩
        · rintro (h | ⟨rfl | h, hn⟩)
          · exact .inl h
          · exact .inl hc
          · exact .inr ⟨h, hn⟩
      · simp only [List.contains_iff_mem, hc, hw', Bool.or_false, if_false, List.mem_cons,
          List.mem_append, List.not_mem_nil, or_false]
        constructor
        · rintro ((h | rfl) | ⟨h, hn⟩)
          · exact .inl h
          · exact .inr ⟨.inl rfl, hw⟩
          · exact .inr ⟨.inr h, hn⟩
        · rintro (h | ⟨rfl | h, hn⟩)
          · exact .inl (.inl h)
          · exact .inl (.inr rfl)
          · exact .inr ⟨h, hn⟩

theorem mem_foldl_addDependencies (o : t.Ordered) (below : NodeId → List NodeId) (i : NodeId)
    (children found : List NodeId) (b : NodeId) :
    b ∈ children.foldl (fun found c => t.addDependencies i found (below c)) found ↔
      b ∈ found ∨ ∃ c ∈ children, b ∈ below c ∧ ¬ t.Within i b := by
  induction children generalizing found with
  | nil => simp
  | cons c rest ih =>
    rw [List.foldl_cons, ih, mem_addDependencies o]
    simp only [List.mem_cons, exists_eq_or_imp]
    tauto

/-- The dependencies of a node are its own bind, if it is a reference, and those of its children
that do not lie in it. -/
theorem mem_dependencies_step (o : t.Ordered) {i : Nat} (hi : i < t.size) (b : NodeId) :
    b ∈ (ofTree t).dependencies i ↔ t.resolution? i = some (.bind b) ∨
      ∃ c ∈ t.children i, b ∈ (ofTree t).dependencies c ∧ ¬ t.Within i b := by
  have hd (j : Nat) : (ofTree t).dependencies j =
      ((List.range t.size).foldl (fun below i => below.push (t.dependenciesFrom below i)) #[]).getD
        j [] := rfl
  have hself : (ofTree t).dependencies i = t.dependenciesFrom
      ((List.range i).foldl (fun below i => below.push (t.dependenciesFrom below i)) #[]) i := by
    rw [hd, dependencies_stable (n := i + 1) (by omega) (by omega), List.range_succ,
      List.foldl_append, List.foldl_cons, List.foldl_nil, Array.getD_eq_getD_getElem?]
    have hs := dependencies_prefix (t := t) i
    rw [Array.getElem?_push, if_pos (by omega)]
    rfl
  have hchild {c : Nat} (hc : c ∈ t.children i) :
      ((List.range i).foldl (fun below i => below.push (t.dependenciesFrom below i)) #[]).getD c []
        = (ofTree t).dependencies c := by
    rw [hd]
    exact (dependencies_stable (o.child_lt hc) (Nat.le_of_lt hi)).symm
  rw [hself, Tree.dependenciesFrom, mem_foldl_addDependencies o
    (fun c => ((List.range i).foldl
      (fun below i => below.push (t.dependenciesFrom below i)) #[]).getD c [])]
  constructor
  · rintro (h | ⟨c, hc, hb, hn⟩)
    · left
      split at h
      · rename_i b' hr
        rw [List.mem_singleton.1 h]
        exact hr
      · simp at h
    · rw [hchild hc] at hb
      exact .inr ⟨c, hc, hb, hn⟩
  · rintro (h | ⟨c, hc, hb, hn⟩)
    · left
      simp [h]
    · refine .inr ⟨c, hc, ?_, hn⟩
      rw [hchild hc]
      exact hb

/-- A node depends exactly on the binds outside of it that a reference within it means. -/
theorem mem_dependencies (o : t.Ordered) {i b : NodeId} :
    b ∈ (ofTree t).dependencies i ↔
      ∃ r, t.Within i r ∧ t.resolution? r = some (.bind b) ∧ ¬ t.Within i b := by
  induction i using Nat.strong_induction_on generalizing b with
  | _ i ih =>
    constructor
    · intro h
      have hi : i < t.size := by
        by_contra hn
        have hs := dependencies_prefix (t := t) t.size
        have : (ofTree t).dependencies i = [] := by
          have hd : (ofTree t).dependencies i = ((List.range t.size).foldl
            (fun below i => below.push (t.dependenciesFrom below i)) #[]).getD i [] := rfl
          rw [hd, Array.getD_eq_getD_getElem?, Array.getElem?_eq_none (by omega)]
          rfl
        simp [this] at h
      rcases (mem_dependencies_step o hi b).1 h with hr | ⟨c, hc, hb, hn⟩
      · exact ⟨i, Tree.Within.refl i, hr, o.not_within_of_resolution hr⟩
      · obtain ⟨r, hw, hr, -⟩ := (ih c (o.child_lt hc)).1 hb
        exact ⟨r, (Tree.Within.child hc).trans hw, hr, hn⟩
    · rintro ⟨r, hw, hr, hn⟩
      rcases hw.cases_head with rfl | ⟨c, hc, hw⟩
      · exact (mem_dependencies_step o (Tree.lt_size_of_resolution hr) b).2 (.inl hr)
      · have hi := Tree.lt_size_of_mem_children hc
        refine (mem_dependencies_step o hi b).2 (.inr ⟨c, hc, ?_, hn⟩)
        refine (ih c (o.child_lt hc)).2 ⟨r, hw, hr, ?_⟩
        exact fun h => hn ((Tree.Within.child hc).trans h)

/-- The readers of a tree are exactly the nodes that name a stream. -/
theorem mem_readers {stream : String} {i : NodeId} :
    (stream, i) ∈ (ofTree t).readers ↔ ∃ k, t.kind? i = some k ∧ k.stream? = some stream := by
  simp only [ofTree, Tree.ids, List.mem_filterMap, List.mem_range, Option.map_eq_some_iff,
    Prod.mk.injEq, Option.bind_eq_some_iff]
  constructor
  · rintro ⟨j, -, s, ⟨k, hk, hs⟩, rfl, rfl⟩
    exact ⟨k, hk, hs⟩
  · rintro ⟨k, hk, hs⟩
    exact ⟨i, Tree.lt_size_of_kind hk, stream, ⟨k, hk, hs⟩, rfl, rfl⟩

end Analysis

namespace Tree

variable {t : Tree} {b c i r : NodeId}

/-- Outside of functions a node depends on binds before a statement around it. -/
theorem Ordered.exists_precedes_of_dependency (o : t.Ordered) (hf : ∀ i, t.isFunction i = false)
    (hb : b ∈ (Analysis.ofTree t).dependencies i) :
    ∃ p e, t.Precedes p b e ∧ t.Within e i ∧ t.kindIs NodeKind.isBind b = true := by
  obtain ⟨r, hir, hr, hib⟩ := (Analysis.mem_dependencies o).1 hb
  obtain ⟨p, e, hp, her⟩ := o.exists_precedes hf hr
  obtain ⟨-, -, name, -, -, -, -, hk⟩ := o.exists_sibling_of_resolution hr
  refine ⟨p, e, hp, ?_, by simp [kindIs, hk, NodeKind.isBind]⟩
  exact (o.precedes_cases hp her hir).resolve_left fun h => hib (h.trans (.child hp.mem_children))

/-- A node that is no block depends on all that its parts depend on. -/
theorem Ordered.dependencies_part (o : t.Ordered) (hf : ∀ i, t.isFunction i = false)
    (hc : c ∈ t.children r) (hr : t.kind? r ≠ some .block)
    (hb : b ∈ (Analysis.ofTree t).dependencies c) : b ∈ (Analysis.ofTree t).dependencies r := by
  obtain ⟨i, hci, hi, -⟩ := (Analysis.mem_dependencies o).1 hb
  obtain ⟨p, e, hp, hec, -⟩ := o.exists_precedes_of_dependency hf hb
  refine (Analysis.mem_dependencies o).2 ⟨i, (Within.child hc).trans hci, hi, fun hrb => ?_⟩
  have her : t.Within e r := by
    rcases hec.cases_tail with rfl | ⟨q, hq, hcq⟩
    · obtain rfl := o.parent_unique hc hp.later
      exact absurd hp.block hr
    · obtain rfl := o.parent_unique hc hcq
      exact hq
  exact hp.ne (o.sibling_eq hp.mem_children hp.later (.refl b) (her.trans hrb))

end Tree
end StreamLang
