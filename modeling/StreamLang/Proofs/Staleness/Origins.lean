import StreamLang.Proofs.Staleness.Least
/-!
Where marks come from. A node becomes dirty by a walk only if a reader lies within it. A node that is in
doubt has been walked since the last commit, as a commit makes every doubt a certainty.
-/
namespace StreamLang.Staleness

open Mark (level)

variable {t : Tree} {left : NodeId → Prop} {s : Staleness} {readers : List NodeId} {i : NodeId}

/-- No walk from the readers marks a node more strongly than this. -/
def reach (t : Tree) (s : Staleness) (readers : List NodeId) (i : NodeId) : Nat :=
  if level s.walked[i]? = 2 ∨ readers.any (t.isAncestorOrSelf i ·) then 2 else 1

theorem reach_eq_two (o : t.Ordered) :
    reach t s readers i = 2 ↔ level s.walked[i]? = 2 ∨ ∃ j ∈ readers, t.Within i j := by
  have hany : readers.any (t.isAncestorOrSelf i ·) = true ↔ ∃ j ∈ readers, t.Within i j := by
    simp [o.isAncestorOrSelf_iff]
  rw [reach, ← hany]
  split <;> simp_all

theorem reach_cases (t : Tree) (s : Staleness) (readers : List NodeId) (i : NodeId) :
    reach t s readers i = 2 ∨ reach t s readers i = 1 := by
  unfold reach
  split
  · exact .inl rfl
  · exact .inr rfl

theorem reach_pos : 0 < reach t s readers i := by
  rcases reach_cases t s readers i with h | h <;> omega

theorem closed_reach (o : t.Ordered) (h : Walked t left s) : Closed t (reach t s readers) where
  up p c hc := by
    rcases reach_cases t s readers c with hreach | hreach
    · have hp : reach t s readers p = 2 := by
        refine (reach_eq_two o).2 (((reach_eq_two o).1 hreach).imp (fun hw => ?_) ?_)
        · have hle := (h.up p c hc).resolve_right (by simp)
          have := Mark.level_le s.walked[p]?
          omega
        · exact fun ⟨j, hj, hcj⟩ => ⟨j, hj, (Tree.Within.child hc).trans hcj⟩
      omega
    · exact hreach ▸ reach_pos
  refer _ _ _ _ := reach_pos

/-- A walk takes marks no further, and to nothing else than what was walked. -/
theorem walked_le_reach (o : t.Ordered) (h : Walked t left s) (readers : List NodeId) :
    (∀ i : NodeId, level (s.markAllChanged (.ofTree t) readers).walked[i]? ≤ reach t s readers i) ∧
      Raised s.marks (s.markAllChanged (.ofTree t) readers) := by
  refine least_markAllChanged o (closed_reach o h) readers (fun i => ?_) (fun i hi _ => ?_) h.raised
  · have := Mark.level_le s.walked[i]?
    unfold reach
    split
    · exact this
    · rename_i hne
      have hne : level s.walked[i]? ≠ 2 := fun h => hne (.inl h)
      omega
  · exact Nat.le_of_eq ((reach_eq_two o).2 (.inr ⟨i, hi, .refl i⟩)).symm

/-- What is dirty after marking was dirty before, or a reader lies within it. -/
theorem dirty_of_markAllChanged (o : t.Ordered) (h : Walked t left s)
    (hi : (s.markAllChanged (.ofTree t) readers).mark? i = some .dirty) :
    s.mark? i = some .dirty ∨ ∃ j ∈ readers, t.Within i j := by
  obtain ⟨hle, hraised⟩ := walked_le_reach o h readers
  have hmax := hraised i
  have hle := hle i
  have hmark : level s.marks[i]? = 2 → s.mark? i = some .dirty := Mark.level_eq_two_iff.1
  rw [hi, Mark.level_some, Mark.rank_dirty] at hmax
  rcases reach_cases t s readers i with hreach | hreach
  · rcases (reach_eq_two o).1 hreach with hw | hr
    · have := h.walked_le i
      have := Mark.level_le (s.mark? i)
      exact .inl (Mark.level_eq_two_iff.1 (by omega))
    · exact .inr hr
  · exact .inl (hmark (by omega))

/-- A node is in doubt only if a walk has left it so. -/
def Fresh (s : Staleness) : Prop := ∀ i, s.mark? i = some .maybeDirty → level s.walked[i]? = 1

theorem fresh_empty : Fresh .empty := fun i h => by simp at h

theorem fresh_promote (s : Staleness) : s.promote.Fresh := fun i h => by
  rw [mark?_promote] at h
  obtain ⟨-, -, h⟩ := Option.map_eq_some_iff.1 h
  cases h

theorem Fresh.markAllChanged (hs : s.Fresh) (o : t.Ordered) (h : Walked t left s)
    (readers : List NodeId) : (s.markAllChanged (.ofTree t) readers).Fresh := by
  intro i hi
  have hmax := (walked_le_reach o h readers).2 i
  have hgrows := (walked_markAllChanged o readers h).2.1.walked i
  rw [hi, Mark.level_some, Mark.rank_maybeDirty] at hmax
  by_contra hne
  have hbefore : s.mark? i = some .maybeDirty := by
    have hone : level (s.mark? i) = 1 := show level s.marks[i]? = 1 by omega
    exact Mark.level_injective hone
  have := hs i hbefore
  omega

end StreamLang.Staleness
