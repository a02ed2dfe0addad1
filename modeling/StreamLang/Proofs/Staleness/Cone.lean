import StreamLang.Proofs.Staleness.Least
/-!
How far a change reaches. In the cone of a node is all that its value can come from: what lies within
the node, and for each reference there the bind that it means, with all that lies within that. Walks
from readers mark those nodes that have one of them in their cone, and no others
(`mark?_markAllChanged_eq_none`).
-/
namespace StreamLang

/-- The least set that has a node with all that lies within it and, for every reference in the set, the
bind that the reference means with all that lies within that. -/
inductive Tree.Cone (t : Tree) (n : NodeId) : NodeId → Prop where
  | within {i} (h : t.Within n i) : Cone t n i
  | bound {r b i} (hr : Cone t n r) (hb : t.resolution? r = some (.bind b)) (h : t.Within b i) :
    Cone t n i

/-- What belongs to a cone on account of a node in it. -/
def Tree.beneath (t : Tree) (i : NodeId) : List NodeId :=
  t.children i ++ match t.resolution? i with
    | some (.bind b) => [b]
    | _ => []

namespace Tree.Cone

variable {t : Tree} {n i r b j : NodeId}

theorem of_within (hn : t.Within n i) (h : t.Cone i j) : t.Cone n j := by
  induction h with
  | within h => exact .within (hn.trans h)
  | bound _ hb h ih => exact .bound ih hb h

theorem of_bind (hr : t.resolution? r = some (.bind b)) (h : t.Cone b j) : t.Cone r j := by
  induction h with
  | within h => exact .bound (.within (.refl r)) hr h
  | bound _ hb h ih => exact .bound ih hb h

/-- Nothing leads out of nodes that have all that is beneath them. -/
theorem mem_of_closed {nodes : List NodeId} (hn : n ∈ nodes)
    (closed : ∀ i ∈ nodes, ∀ j ∈ t.beneath i, j ∈ nodes) (h : t.Cone n j) : j ∈ nodes := by
  have within {i j : NodeId} (hi : i ∈ nodes) (h : t.Within i j) : j ∈ nodes := by
    induction h with
    | refl => exact hi
    | tail _ hc ih => exact closed _ ih _ (List.mem_append_left _ hc)
  induction h with
  | within h => exact within hn h
  | @bound r b _ _ hb h ih =>
    refine within (closed r ih b (List.mem_append_right _ ?_)) h
    rw [hb]
    exact List.mem_singleton.2 rfl

end Tree.Cone

namespace Staleness

open Mark (level)
open Classical in
/-- How strongly walks from readers may mark a node. -/
noncomputable def spread (t : Tree) (s : Staleness) (readers : List NodeId) (i : NodeId) : Nat :=
  if ∃ j ∈ readers, j < t.size ∧ t.Cone i j then 2 else level s.walked[i]?

variable {t : Tree} {left : NodeId → Prop} {G : NodeId → Nat} {s : Staleness}
  {readers : List NodeId} {n i j : NodeId}

theorem Closed.within (c : Closed t G) (h : t.Within i j) : G j ≤ G i := by
  induction h with
  | refl => exact Nat.le_refl _
  | tail _ hc ih => exact (c.up _ _ hc).trans ih

/-- Whatever has a walked node in its cone is walked too. -/
theorem Closed.cone (c : Closed t G) (h : t.Cone n j) (hj : 0 < G j) : 0 < G n := by
  induction h with
  | within h => exact hj.trans_le (c.within h)
  | @bound r b _ _ hb h ih => exact ih (c.refer r b hb (hj.trans_le (c.within h)))

theorem spread_of_cone (hj : j ∈ readers) (hlt : j < t.size) (h : t.Cone i j) :
    spread t s readers i = 2 :=
  if_pos ⟨j, hj, hlt, h⟩

theorem walked_le_spread (i : NodeId) : level s.walked[i]? ≤ spread t s readers i := by
  unfold spread
  split
  · exact Mark.level_le _
  · exact Nat.le_refl _

theorem closed_spread (h : Walked t left s) : Closed t (spread t s readers) where
  up p c hc := by
    by_cases hr : ∃ j ∈ readers, j < t.size ∧ t.Cone c j
    · obtain ⟨j, hj, hlt, hcone⟩ := hr
      rw [spread_of_cone hj hlt hcone, spread_of_cone hj hlt (hcone.of_within (.child hc))]
    · rw [spread, if_neg hr]
      exact (h.closed.up p c hc).trans (walked_le_spread p)
  refer r b hb hpos := by
    by_cases hr : ∃ j ∈ readers, j < t.size ∧ t.Cone b j
    · obtain ⟨j, hj, hlt, hcone⟩ := hr
      rw [spread_of_cone hj hlt (hcone.of_bind hb)]
      exact Nat.two_pos
    · rw [spread, if_neg hr] at hpos
      exact (h.closed.refer r b hb hpos).trans_le (walked_le_spread r)

/-- A node has no mark after walks from readers if it had none and no reader is in its cone. -/
theorem mark?_markAllChanged_eq_none (o : t.Ordered) (h : Walked t left s) :
    (s.markAllChanged (.ofTree t) readers).mark? n = none ↔
      s.mark? n = none ∧ ∀ j ∈ readers, j < t.size → ¬ t.Cone n j := by
  obtain ⟨hwalked, hgrows, hdirty⟩ := walked_markAllChanged o readers h
  constructor
  · intro hnone
    have hlevel : level ((s.markAllChanged (.ofTree t) readers).mark? n) = 0 :=
      Mark.level_eq_zero_iff.2 hnone
    refine ⟨Mark.level_eq_zero_iff.1 (Nat.le_zero.1 (hlevel ▸ hgrows.marks n)), ?_⟩
    intro j hj hlt hcone
    have hj : 0 < level (s.markAllChanged (.ofTree t) readers).walked[j]? := by
      rw [hdirty j hj hlt]
      exact Nat.two_pos
    have hn := hwalked.closed.cone hcone hj
    have hle := hwalked.walked_le n
    omega
  · rintro ⟨hnone, hcone⟩
    have hspread : spread t s readers n = 0 := by
      rw [spread, if_neg fun ⟨j, hj, hlt, hc⟩ => hcone j hj hlt hc]
      have hle := h.walked_le n
      rw [hnone] at hle
      exact Nat.le_zero.1 hle
    obtain ⟨hle, hraised⟩ := least_markAllChanged o (closed_spread h) readers walked_le_spread
      (fun i hi hlt => Nat.le_of_eq (spread_of_cone hi hlt (.within (.refl i))).symm) h.raised
    have hmax := hraised n
    have hle := hle n
    have hbefore : level s.marks[n]? = 0 := Mark.level_eq_zero_iff.2 hnone
    exact Mark.level_eq_zero_iff.1 (by omega)

end Staleness
end StreamLang
