import StreamLang.Proofs.Staleness.Walk
/-!
Marking does not depend on the order in which changes come in. A walk goes no further than it must:
what has been walked is the least that is closed upwards and from binds to what refers to them. So
every order of the same readers ends with the same marks (`markAllChanged_congr`).
-/
namespace StreamLang

theorem Mark.level_injective : Function.Injective level := by
  intro a b h
  rcases a with _ | _ | _ <;> rcases b with _ | _ | _ <;> first | rfl | cases h

namespace Staleness

open Mark (level)

/-- Whatever is walked so strongly, nodes above it and references to it are walked too. -/
structure Closed (t : Tree) (G : NodeId → Nat) : Prop where
  up : ∀ p c, c ∈ t.children p → G c ≤ G p
  refer : ∀ r b, t.resolution? r = some (.bind b) → 0 < G b → 0 < G r

/-- Neither what was walked nor what is still to be visited goes beyond a bound. -/
structure Bounded (t : Tree) (G : NodeId → Nat) (s : Staleness) (queue : List (NodeId × Mark)) :
    Prop where
  walked : ∀ i : NodeId, level s.walked[i]? ≤ G i
  queued : ∀ i m, (i, m) ∈ queue → i < t.size → m.rank ≤ G i

/-- Every mark is the stronger of one that was there before and the one walked at. -/
def Raised (before : NodeMap Mark) (s : Staleness) : Prop :=
  ∀ i : NodeId, level (s.mark? i) = max (level before[i]?) (level s.walked[i]?)

variable {t : Tree} {left : NodeId → Prop} {G : NodeId → Nat} {before : NodeMap Mark}
  {s : Staleness}

theorem Walking.closed (h : Walked t left s) : Closed t fun i => level s.walked[i]? where
  up p c hc := (h.up p c hc).resolve_right (by simp)
  refer r b hr hb := (h.refer r b hr hb).resolve_right (by simp)

theorem Walking.raised (h : Walked t left s) : Raised s.marks s := fun i =>
  (Nat.max_eq_left (h.walked_le i)).symm

namespace Walk

theorem bounded_visit (o : t.Ordered) (c : Closed t G) {i : NodeId} {m : Mark}
    {rest : List (NodeId × Mark)} (raised : List NodeId) (h : Bounded t G s ((i, m) :: rest)) :
    let w := Walk.visit (.ofTree t) ⟨s, rest, raised⟩ i m
    Bounded t G w.staleness w.queue := by
  intro w
  have hrest (j : NodeId) (m' : Mark) (hj : (j, m') ∈ rest) : j < t.size → m'.rank ≤ G j :=
    h.queued j m' (List.mem_cons_of_mem _ hj)
  rcases visit_cases (t := t) ⟨s, rest, raised⟩ i m with ⟨hw, -⟩ | ⟨marks, raised', hw, hs, -, -⟩
  · rw [show w = ⟨s, rest, raised⟩ from hw]
    exact ⟨h.walked, hrest⟩
  rw [show w = ⟨⟨marks, s.walked.insert i m⟩, rest ++ onwards (.ofTree t) i m, raised'⟩ from hw]
  have hi : m.rank ≤ G i := h.queued i m List.mem_cons_self (Tree.lt_size_iff.2 hs)
  refine ⟨fun j => ?_, fun j m' hj hlt => ?_⟩
  · by_cases hij : i = j
    · subst hij
      simpa using hi
    · simpa [Std.ExtTreeMap.getElem?_insert, hij] using h.walked j
  · rcases List.mem_append.1 hj with hj | hj
    · exact hrest j m' hj hlt
    rcases mem_onwards.1 hj with ⟨-, hr, rfl⟩ | ⟨hp, rfl⟩
    · exact c.refer j i hr (Nat.lt_of_lt_of_le m.rank_pos hi)
    · exact Nat.le_trans hi (c.up j i (o.parent_iff.1 hp))

theorem raised_visit {i : NodeId} {m : Mark} {rest : List (NodeId × Mark)} (raised : List NodeId)
    (h : Raised before s) :
    Raised before (Walk.visit (.ofTree t) ⟨s, rest, raised⟩ i m).staleness := by
  rcases visit_cases (t := t) ⟨s, rest, raised⟩ i m with ⟨hw, -⟩ | ⟨marks, raised', hw, -, hlt, hm⟩
  · rw [hw]
    exact h
  rw [hw]
  intro j
  have hj := h j
  by_cases hij : i = j
  · subst hij
    have hlt : level s.walked[i]? < m.rank := hlt
    rcases hm with ⟨rfl, hm⟩ | ⟨rfl, hm⟩
    · have hm : m.rank ≤ level (s.mark? i) := hm
      have hsame : level ((⟨s.marks, s.walked.insert i m⟩ : Staleness).mark? i) =
          level (s.mark? i) := rfl
      simp only [hsame, Std.ExtTreeMap.getElem?_insert_self, Mark.level_some]
      omega
    · have hm : level (s.mark? i) < m.rank := hm
      simp only [mark?, Std.ExtTreeMap.getElem?_insert_self, Mark.level_some]
      omega
  · have hmark : (⟨marks, s.walked.insert i m⟩ : Staleness).mark? j = s.mark? j := by
      rcases hm with ⟨rfl, -⟩ | ⟨rfl, -⟩
      · rfl
      · simp [mark?, Std.ExtTreeMap.getElem?_insert, hij]
    have hwalked : (s.walked.insert i m)[j]? = s.walked[j]? := by
      simp [Std.ExtTreeMap.getElem?_insert, hij]
    simp only [hmark, hwalked]
    exact hj

theorem least_run (o : t.Ordered) (c : Closed t G) (n : Nat) (w : Walk)
    (h : Bounded t G w.staleness w.queue) (hr : Raised before w.staleness) :
    let w' := Walk.run (.ofTree t) n w
    Bounded t G w'.staleness w'.queue ∧ Raised before w'.staleness := by
  induction n generalizing w with
  | zero => exact ⟨h, hr⟩
  | succ n ih =>
    obtain ⟨s, queue, raised⟩ := w
    cases queue with
    | nil => exact ⟨h, hr⟩
    | cons x rest =>
      obtain ⟨i, m⟩ := x
      exact ih _ (bounded_visit o c raised h) (raised_visit raised hr)

end Walk

/-- What is walked from readers is within every closed bound on what was walked before. -/
theorem least_markAllChanged (o : t.Ordered) (c : Closed t G) (readers : List NodeId)
    (hs : ∀ i : NodeId, level s.walked[i]? ≤ G i) (hg : ∀ i ∈ readers, i < t.size → 2 ≤ G i)
    (hr : Raised before s) :
    let s' := s.markAllChanged (.ofTree t) readers
    (∀ i : NodeId, level s'.walked[i]? ≤ G i) ∧ Raised before s' := by
  induction readers generalizing s with
  | nil => exact ⟨hs, hr⟩
  | cons i rest ih =>
    have hq : Bounded t G s [(i, .dirty)] := by
      refine ⟨hs, fun j m hj hlt => ?_⟩
      obtain ⟨rfl, rfl⟩ := Prod.mk.inj (List.mem_singleton.1 hj)
      exact hg j List.mem_cons_self hlt
    obtain ⟨hb, hr⟩ := Walk.least_run o c (4 * t.size + 1) ⟨s, [(i, .dirty)], []⟩ hq hr
    exact ih hb.walked (fun j hj => hg j (List.mem_cons_of_mem _ hj)) hr

/-- Readers may be marked in any order, and more than once. -/
theorem markAllChanged_congr (o : t.Ordered) (h : Walked t left s) {xs ys : List NodeId}
    (hxy : ∀ i, i ∈ xs ↔ i ∈ ys) :
    s.markAllChanged (.ofTree t) xs = s.markAllChanged (.ofTree t) ys := by
  have within {xs ys : List NodeId} (hsub : ∀ i ∈ xs, i ∈ ys) (i : NodeId) :
      level (s.markAllChanged (.ofTree t) xs).walked[i]? ≤
        level (s.markAllChanged (.ofTree t) ys).walked[i]? := by
    obtain ⟨hw, hg, hd⟩ := walked_markAllChanged o ys h
    refine (least_markAllChanged o hw.closed xs hg.walked (fun j hj hlt => ?_) h.raised).1 i
    rw [hd j (hsub j hj) hlt]
    exact Nat.le_refl _
  have walked (i : NodeId) : level (s.markAllChanged (.ofTree t) xs).walked[i]? =
      level (s.markAllChanged (.ofTree t) ys).walked[i]? :=
    Nat.le_antisymm (within (fun i => (hxy i).1) i) (within (fun i => (hxy i).2) i)
  have raised (zs : List NodeId) : Raised s.marks (s.markAllChanged (.ofTree t) zs) := by
    have top : Closed t fun _ => 2 := ⟨fun _ _ _ => Nat.le_refl _, fun _ _ _ h => h⟩
    exact (least_markAllChanged o top zs (fun i => Mark.level_le _)
      (fun _ _ _ => Nat.le_refl _) h.raised).2
  ext i
  · have hi : level ((s.markAllChanged (.ofTree t) xs).mark? i) =
        level ((s.markAllChanged (.ofTree t) ys).mark? i) := by
      rw [raised xs i, raised ys i, walked i]
    rw [show (s.markAllChanged (.ofTree t) xs).marks[i]? = _ from Mark.level_injective hi]
    rfl
  · rw [Mark.level_injective (walked i)]

theorem markAllChanged_append (p : Program) (xs ys : List NodeId) :
    s.markAllChanged p (xs ++ ys) = (s.markAllChanged p xs).markAllChanged p ys :=
  List.foldl_append

end Staleness
end StreamLang
