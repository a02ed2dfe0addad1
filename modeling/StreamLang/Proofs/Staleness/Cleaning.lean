import StreamLang.Proofs.Staleness.Walk
/-!
What cleaning takes away: marks that hang together below the cleaned node and nothing else, and with
every mark also those right below it.
-/
namespace StreamLang.Staleness

open Mark (level)

variable {t : Tree}

/-- A node below another, all nodes on the way down to it being marked. -/
def Connected (t : Tree) (marks : NodeMap Mark) : NodeId → NodeId → Prop :=
  Relation.ReflTransGen fun p c => c ∈ t.children p ∧ marks[c]? ≠ none

theorem Connected.within {marks : NodeMap Mark} {i x : NodeId} (h : Connected t marks i x) :
    t.Within i x := Relation.ReflTransGen.mono (fun _ _ h => h.1) _ _ h

theorem Connected.mono {marks marks' : NodeMap Mark} {i x : NodeId}
    (le : ∀ j : NodeId, marks[j]? ≠ none → marks'[j]? ≠ none) (h : Connected t marks i x) :
    Connected t marks' i x :=
  Relation.ReflTransGen.mono (fun _ c h => ⟨h.1, le c h.2⟩) _ _ h

/-- What is left of some marks after cleaning from some nodes. -/
structure Pruned (t : Tree) (roots : List NodeId) (marks rest : NodeMap Mark) : Prop where
  kept : ∀ (x : NodeId) m, rest[x]? = some m → marks[x]? = some m
  connected : ∀ x : NodeId, marks[x]? ≠ none → rest[x]? = none →
    ∃ i ∈ roots, Connected t marks i x
  below : ∀ x : NodeId, marks[x]? ≠ none → rest[x]? = none → ∀ c ∈ t.children x, rest[c]? = none
  roots : ∀ i ∈ roots, rest[i]? = none ∧ ∀ c ∈ t.children i, rest[c]? = none

namespace Pruned

theorem none_of_none {roots : List NodeId} {marks rest : NodeMap Mark}
    (h : Pruned t roots marks rest) {x : NodeId} (hx : marks[x]? = none) : rest[x]? = none := by
  cases hr : rest[x]? with
  | none => rfl
  | some m => rw [h.kept x m hr] at hx; cases hx

theorem refl (marks : NodeMap Mark) : Pruned t [] marks marks :=
  ⟨fun _ _ h => h, fun _ h h' => absurd h' h, fun _ h h' => absurd h' h, by simp⟩

/-- Cleaning from one list of nodes after another cleans from both. -/
theorem append {is js : List NodeId} {marks mid rest : NodeMap Mark}
    (h : Pruned t is marks mid) (h' : Pruned t js mid rest) : Pruned t (is ++ js) marks rest := by
  refine ⟨fun x m hm => h.kept x m (h'.kept x m hm), ?_, ?_, ?_⟩
  · intro x hx hn
    cases hm : mid[x]? with
    | none =>
      obtain ⟨i, hi, hc⟩ := h.connected x hx hm
      exact ⟨i, List.mem_append_left _ hi, hc⟩
    | some m =>
      obtain ⟨i, hi, hc⟩ := h'.connected x (by simp [hm]) hn
      exact ⟨i, List.mem_append_right _ hi, hc.mono fun j hj hn => hj (h.none_of_none hn)⟩
  · intro x hx hn c hc
    cases hm : mid[x]? with
    | none => exact h'.none_of_none (h.below x hx hm c hc)
    | some m => exact h'.below x (by simp [hm]) hn c hc
  · intro i hi
    rcases List.mem_append.1 hi with hi | hi
    · obtain ⟨hself, hc⟩ := h.roots i hi
      exact ⟨h'.none_of_none hself, fun c hm => h'.none_of_none (hc c hm)⟩
    · exact h'.roots i hi

end Pruned

/-- Cleaning the marked nodes of a list one after another. -/
theorem pruned_foldl (f : NodeId → NodeMap Mark → NodeMap Mark) (cs : List NodeId)
    (hf : ∀ c ∈ cs, ∀ marks, Pruned t [c] marks (f c marks)) (marks : NodeMap Mark) :
    let rest := cs.foldl (fun marks c => if marks.contains c then f c marks else marks) marks
    (∀ (x : NodeId) m, rest[x]? = some m → marks[x]? = some m) ∧
    (∀ x : NodeId, marks[x]? ≠ none → rest[x]? = none →
      (∃ c ∈ cs, marks[c]? ≠ none ∧ Connected t marks c x) ∧
        ∀ d ∈ t.children x, rest[d]? = none) ∧
    ∀ c ∈ cs, rest[c]? = none := by
  induction cs generalizing marks with
  | nil => exact ⟨fun _ _ h => h, fun _ h h' => absurd h' h, by simp⟩
  | cons c cs ih =>
    rw [List.foldl_cons]
    cases hm : marks[c]? with
    | none =>
      have hcontains : marks.contains c = false := by
        rw [Std.ExtTreeMap.contains_eq_isSome_getElem?, hm]
        rfl
      simp only [hcontains, Bool.false_eq_true, if_false]
      obtain ⟨h1, h2, h3⟩ := ih (fun c hc => hf c (List.mem_cons_of_mem _ hc)) marks
      refine ⟨h1, ?_, ?_⟩
      · intro x hx hn
        obtain ⟨⟨d, hd, hr⟩, hb⟩ := h2 x hx hn
        exact ⟨⟨d, List.mem_cons_of_mem _ hd, hr⟩, hb⟩
      · intro d hd
        rcases List.mem_cons.1 hd with rfl | hd
        · cases hr : (cs.foldl (fun marks c =>
              if marks.contains c then f c marks else marks) marks)[d]? with
          | none => rfl
          | some m => rw [h1 d m hr] at hm; cases hm
        · exact h3 d hd
    | some m =>
      have hcontains : marks.contains c = true := by
        rw [Std.ExtTreeMap.contains_eq_isSome_getElem?, hm]
        rfl
      simp only [hcontains, if_true]
      have hc := hf c List.mem_cons_self marks
      obtain ⟨h1, h2, h3⟩ := ih (fun c hc => hf c (List.mem_cons_of_mem _ hc)) (f c marks)
      have hnone {x : NodeId} (hx : (f c marks)[x]? = none) : (cs.foldl (fun marks c =>
          if marks.contains c then f c marks else marks) (f c marks))[x]? = none := by
        cases hr : (cs.foldl (fun marks c =>
            if marks.contains c then f c marks else marks) (f c marks))[x]? with
        | none => rfl
        | some m => rw [h1 x m hr] at hx; cases hx
      refine ⟨fun x m hx => hc.kept x m (h1 x m hx), ?_, ?_⟩
      · intro x hx hn
        cases hfx : (f c marks)[x]? with
        | none =>
          obtain ⟨i, hi, hconn⟩ := hc.connected x hx hfx
          obtain rfl := List.mem_singleton.1 hi
          exact ⟨⟨i, List.mem_cons_self, by simp [hm], hconn⟩,
            fun d hd => hnone (hc.below x hx hfx d hd)⟩
        | some m' =>
          obtain ⟨⟨d, hd, hr, hconn⟩, hb⟩ := h2 x (by simp [hfx]) hn
          have hle (j : NodeId) : (f c marks)[j]? ≠ none → marks[j]? ≠ none :=
            fun hj hn => hj (hc.none_of_none hn)
          exact ⟨⟨d, List.mem_cons_of_mem _ hd, hle d hr, hconn.mono hle⟩, hb⟩
      · intro d hd
        rcases List.mem_cons.1 hd with rfl | hd
        · exact hnone (hc.roots d List.mem_cons_self).1
        · exact h3 d hd

/-- With more levels than the number of the node, cleaning reaches all that hangs together. -/
theorem pruned_cleanWithin (o : t.Ordered) (n i : Nat) (h : i < n) (marks : NodeMap Mark) :
    Pruned t [i] marks (cleanWithin t n i marks) := by
  induction n generalizing i marks with
  | zero => omega
  | succ n ih =>
    obtain ⟨h1, h2, h3⟩ := pruned_foldl (t := t) (cleanWithin t n) (t.children i)
      (fun c hc marks => ih c (by have := o.child_lt hc; omega) marks) (marks.erase i)
    have herase (x : NodeId) : (marks.erase i)[x]? = if i = x then none else marks[x]? := by
      simp [Std.ExtTreeMap.getElem?_erase]
    have hle (j : NodeId) : (marks.erase i)[j]? ≠ none → marks[j]? ≠ none := by
      rw [herase]
      split <;> simp
    have hself : (cleanWithin t (n + 1) i marks)[i]? = none := by
      cases hr : (cleanWithin t (n + 1) i marks)[i]? with
      | none => rfl
      | some m =>
        have := h1 i m hr
        simp at this
    refine ⟨?_, ?_, ?_, ?_⟩
    · intro x m hx
      have := h1 x m hx
      rw [herase] at this
      split at this
      · cases this
      · exact this
    · intro x hx hn
      refine ⟨i, List.mem_singleton_self i, ?_⟩
      by_cases hxi : i = x
      · subst hxi
        exact Relation.ReflTransGen.refl
      · obtain ⟨⟨c, hc, hm, hconn⟩, -⟩ := h2 x (by rwa [herase, if_neg hxi]) hn
        exact Relation.ReflTransGen.head ⟨hc, hle c hm⟩ (hconn.mono hle)
    · intro x hx hn c hc
      by_cases hxi : i = x
      · subst hxi
        exact h3 c hc
      · exact (h2 x (by rwa [herase, if_neg hxi]) hn).2 c hc
    · intro j hj
      obtain rfl := List.mem_singleton.1 hj
      exact ⟨hself, h3⟩

/-- Cleaning one node after another, as a commit does. -/
theorem pruned_cleanSubtrees (o : t.Ordered) (cleaned : List NodeId) (s : Staleness) :
    Pruned t cleaned s.marks (cleaned.foldl (fun s i => s.cleanSubtree t i) s).marks := by
  induction cleaned generalizing s with
  | nil => exact Pruned.refl _
  | cons i rest ih =>
    exact (pruned_cleanWithin o (i + 1) i (Nat.lt_succ_self i) s.marks).append
      (ih (s.cleanSubtree t i))

theorem walked_cleanSubtrees (cleaned : List NodeId) (s : Staleness) :
    (cleaned.foldl (fun s i => s.cleanSubtree t i) s).walked =
      if cleaned = [] then s.walked else ∅ := by
  induction cleaned generalizing s with
  | nil => rfl
  | cons i rest ih =>
    rw [List.foldl_cons, ih]
    cases rest <;> rfl

end StreamLang.Staleness
