import Mathlib.Algebra.GroupWithZero.Nat
import StreamLang.Proofs.Tree.Dependencies
import StreamLang.Staleness
/-!
The walk that marks what depends on a changed reader. It always comes to its end within the visits
that it is given, and afterwards what was walked is closed upwards and from binds to what refers to
them, every doubt has a reason, and the marks agree with the walks outside of a set of nodes that
were left behind by earlier passes.
-/
namespace StreamLang

namespace Mark

/-- How strong a mark is; none is weakest. -/
def level : Option Mark → Nat
  | none => 0
  | some m => m.rank

@[simp] theorem level_none : level none = 0 := rfl
@[simp] theorem level_some (m : Mark) : level (some m) = m.rank := rfl
@[simp] theorem rank_maybeDirty : rank maybeDirty = 1 := rfl
@[simp] theorem rank_dirty : rank dirty = 2 := rfl

theorem rank_pos (m : Mark) : 0 < m.rank := by cases m <;> simp

theorem rank_le (m : Mark) : m.rank ≤ 2 := by cases m <;> simp

theorem covers_iff {o : Option Mark} {m : Mark} : covers o m = true ↔ m.rank ≤ level o := by
  cases o with
  | none =>
    have := m.rank_pos
    simp [covers]
    omega
  | some a => simp [covers]

theorem covers_eq_false_iff {o : Option Mark} {m : Mark} :
    covers o m = false ↔ level o < m.rank := by
  rw [← Bool.not_eq_true, covers_iff, Nat.not_le]

theorem level_le (o : Option Mark) : level o ≤ 2 := by
  cases o with
  | none => simp
  | some m => exact m.rank_le

theorem level_eq_zero_iff {o : Option Mark} : level o = 0 ↔ o = none := by
  cases o with
  | none => simp
  | some m =>
    have := m.rank_pos
    simp
    omega

theorem level_eq_two_iff {o : Option Mark} : level o = 2 ↔ o = some dirty := by
  rcases o with _ | _ | _ <;> simp

theorem eq_dirty_of_le {o : Option Mark} (h : level (some dirty) ≤ level o) : o = some dirty :=
  level_eq_two_iff.1 (Nat.le_antisymm (level_le o) h)

end Mark

namespace Staleness

open Mark (level)

variable {t : Tree}

/-- Why a node may be in doubt: something in it was walked, or the bind that it refers to was. -/
def Doubtful (t : Tree) (walked : NodeMap Mark) (i : NodeId) : Prop :=
  (∃ c ∈ t.children i, 0 < level walked[c]?) ∨
    ∃ b, t.resolution? i = some (.bind b) ∧ 0 < level walked[b]?

theorem Doubtful.mono {walked walked' : NodeMap Mark} {i : NodeId} (h : Doubtful t walked i)
    (le : ∀ j : NodeId, level walked[j]? ≤ level walked'[j]?) : Doubtful t walked' i := by
  rcases h with ⟨c, hc, h⟩ | ⟨b, hb, h⟩
  · exact .inl ⟨c, hc, Nat.lt_of_lt_of_le h (le c)⟩
  · exact .inr ⟨b, hb, Nat.lt_of_lt_of_le h (le b)⟩

/-- What holds of marks while a queue of visits is still to be made, if outside of `left` every mark
comes from a walk. -/
structure Walking (t : Tree) (left : NodeId → Prop) (s : Staleness)
    (queue : List (NodeId × Mark)) : Prop where
  walked_le : ∀ i : NodeId, level s.walked[i]? ≤ level (s.mark? i)
  sync : ∀ i : NodeId, ¬ left i → s.mark? i = s.walked[i]?
  up : ∀ p c, c ∈ t.children p → level s.walked[c]? ≤ level s.walked[p]? ∨
    ∃ m, (p, m) ∈ queue ∧ level s.walked[c]? ≤ m.rank
  refer : ∀ r b, t.resolution? r = some (.bind b) → 0 < level s.walked[b]? →
    0 < level s.walked[r]? ∨ ∃ m, (r, m) ∈ queue
  reason : ∀ i : NodeId, level s.walked[i]? = 1 → Doubtful t s.walked i
  queued : ∀ i, (i, Mark.maybeDirty) ∈ queue → Doubtful t s.walked i

/-- What holds of marks between walks. -/
abbrev Walked (t : Tree) (left : NodeId → Prop) (s : Staleness) : Prop := Walking t left s []

namespace Walk

theorem mem_onwards {i j : NodeId} {m m' : Mark} :
    (j, m') ∈ onwards (.ofTree t) i m ↔
      (t.kindIs NodeKind.isBind i = true ∧ t.resolution? j = some (.bind i) ∧ m' = .maybeDirty) ∨
        (t.parent? i = some j ∧ m' = m) := by
  unfold onwards
  cases hp : t.parent? i <;> cases hk : t.kindIs NodeKind.isBind i <;>
    simp [Program.ofTree, hp, hk, Analysis.mem_referrersOf, and_comm, eq_comm]

/-- A visit that changes something, or one that does not. -/
theorem visit_cases (w : Walk) (i : NodeId) (m : Mark) :
    (w.visit (.ofTree t) i m = w ∧ (t.node? i = none ∨ m.rank ≤ level w.staleness.walked[i]?)) ∨
    (∃ marks raised, w.visit (.ofTree t) i m =
        ⟨⟨marks, w.staleness.walked.insert i m⟩, w.queue ++ onwards (.ofTree t) i m, raised⟩ ∧
      (t.node? i).isSome ∧ level w.staleness.walked[i]? < m.rank ∧
      ((marks = w.staleness.marks ∧ m.rank ≤ level (w.staleness.mark? i)) ∨
        (marks = w.staleness.marks.insert i m ∧ level (w.staleness.mark? i) < m.rank))) := by
  have ht : (Program.ofTree t).tree = t := rfl
  unfold visit
  by_cases hn : t.node? i = none
  · left
    simp [ht, hn]
  have hs : (t.node? i).isSome := Option.isSome_iff_ne_none.2 hn
  cases hc : Mark.covers w.staleness.walked[i]? m with
  | true =>
    left
    simp only [Mark.covers_iff] at hc
    simp [hc, Mark.covers_iff.2 hc]
  | false =>
    right
    have hlt := Mark.covers_eq_false_iff.1 hc
    have hnone : (t.node? i).isNone = false := by
      rw [← Option.not_isSome, hs]
      rfl
    cases hm : Mark.covers (w.staleness.mark? i) m with
    | true =>
      refine ⟨w.staleness.marks, w.raised, ?_, hs, hlt, .inl ⟨rfl, Mark.covers_iff.1 hm⟩⟩
      simp [ht, hnone, hc, hm]
    | false =>
      refine ⟨w.staleness.marks.insert i m, w.raised ++ [i], ?_, hs, hlt,
        .inr ⟨rfl, Mark.covers_eq_false_iff.1 hm⟩⟩
      simp [ht, hnone, hc, hm]

/-- Marks and walks only ever grow stronger. -/
structure Grows (s s' : Staleness) : Prop where
  marks : ∀ i : NodeId, level (s.mark? i) ≤ level (s'.mark? i)
  walked : ∀ i : NodeId, level s.walked[i]? ≤ level s'.walked[i]?

theorem Grows.refl (s : Staleness) : Grows s s := ⟨fun _ => Nat.le_refl _, fun _ => Nat.le_refl _⟩

theorem Grows.trans {s s' s'' : Staleness} (h : Grows s s') (h' : Grows s' s'') : Grows s s'' :=
  ⟨fun i => Nat.le_trans (h.marks i) (h'.marks i),
    fun i => Nat.le_trans (h.walked i) (h'.walked i)⟩

theorem grows_visit (w : Walk) (i : NodeId) (m : Mark) :
    Grows w.staleness (w.visit (.ofTree t) i m).staleness := by
  rcases visit_cases (t := t) w i m with ⟨h, -⟩ | ⟨marks, raised, h, -, hlt, hm⟩
  · rw [h]
    exact Grows.refl _
  · rw [h]
    constructor
    · intro j
      rcases hm with ⟨rfl, -⟩ | ⟨rfl, hm⟩
      · exact Nat.le_refl _
      · by_cases hj : i = j
        · subst hj
          simpa [mark?] using Nat.le_of_lt hm
        · simp [mark?, Std.ExtTreeMap.getElem?_insert, hj]
    · intro j
      by_cases hj : i = j
      · subst hj
        simpa using Nat.le_of_lt hlt
      · simp [Std.ExtTreeMap.getElem?_insert, hj]

/-- One visit keeps what holds of the marks, and afterwards the node has been walked. -/
theorem walking_visit (o : t.Ordered) {left : NodeId → Prop} {s : Staleness} {i : NodeId} {m : Mark}
    {rest : List (NodeId × Mark)} {r : List NodeId} (h : Walking t left s ((i, m) :: rest)) :
    let w := Walk.visit (.ofTree t) ⟨s, rest, r⟩ i m
    Walking t left w.staleness w.queue ∧
      ((t.node? i).isSome → m.rank ≤ level w.staleness.walked[i]?) := by
  intro w
  have grows : Grows s w.staleness := grows_visit ⟨s, rest, r⟩ i m
  rcases visit_cases (t := t) ⟨s, rest, r⟩ i m with ⟨hw, hskip⟩ | ⟨marks, raised', hw, hs, hlt, hm⟩
  · have hw : w = ⟨s, rest, r⟩ := hw
    rw [hw]
    refine ⟨⟨h.walked_le, h.sync, ?_, ?_, h.reason, ?_⟩, ?_⟩
    · intro p c hc
      rcases h.up p c hc with hp | ⟨m', hm', hle⟩
      · exact .inl hp
      · rcases List.mem_cons.1 hm' with he | hm'
        · cases he
          rcases hskip with hn | hr
          · have := Tree.lt_size_iff.1 (Tree.lt_size_of_mem_children hc)
            simp [hn] at this
          · exact .inl (Nat.le_trans hle hr)
        · exact .inr ⟨m', hm', hle⟩
    · intro r b hr hb
      rcases h.refer r b hr hb with hp | ⟨m', hm'⟩
      · exact .inl hp
      · rcases List.mem_cons.1 hm' with he | hm'
        · cases he
          rcases hskip with hn | hle
          · have := Tree.lt_size_iff.1 (Tree.lt_size_of_resolution hr)
            simp [hn] at this
          · exact .inl (Nat.lt_of_lt_of_le m.rank_pos hle)
        · exact .inr ⟨m', hm'⟩
    · exact fun j hj => h.queued j (List.mem_cons_of_mem _ hj)
    · intro hs
      rcases hskip with hn | hle
      · simp [hn] at hs
      · exact hle
  · have hw : w = ⟨⟨marks, s.walked.insert i m⟩, rest ++ onwards (.ofTree t) i m, raised'⟩ := hw
    rw [hw] at grows ⊢
    have hlt : level s.walked[i]? < m.rank := hlt
    have hself : (s.walked.insert i m)[i]? = some m := by simp
    have hother {j : NodeId} (hj : i ≠ j) : (s.walked.insert i m)[j]? = s.walked[j]? := by
      simp [Std.ExtTreeMap.getElem?_insert, hj]
    have hmark {j : NodeId} (hj : i ≠ j) :
        (⟨marks, s.walked.insert i m⟩ : Staleness).mark? j = s.mark? j := by
      rcases hm with ⟨rfl, -⟩ | ⟨rfl, -⟩
      · rfl
      · simp [mark?, Std.ExtTreeMap.getElem?_insert, hj]
    refine ⟨⟨?_, ?_, ?_, ?_, ?_, ?_⟩, fun _ => by simp⟩
    · intro j
      by_cases hj : i = j
      · subst hj
        rcases hm with ⟨rfl, hm⟩ | ⟨rfl, -⟩
        · simpa [mark?] using hm
        · simp [mark?]
      · rw [hmark hj]
        simpa only [hother hj] using h.walked_le j
    · intro j hl
      by_cases hj : i = j
      · subst hj
        rcases hm with ⟨rfl, hm⟩ | ⟨rfl, -⟩
        · have hm : m.rank ≤ level (s.mark? i) := hm
          rw [h.sync i hl] at hm
          omega
        · simp [mark?]
      · rw [hmark hj]
        simpa only [hother hj] using h.sync j hl
    · intro p c hc
      by_cases hci : i = c
      · subst hci
        refine .inr ⟨m, ?_, by simp⟩
        exact List.mem_append_right _ (mem_onwards.2 (.inr ⟨o.parent_iff.2 hc, rfl⟩))
      · simp only [hother hci]
        rcases h.up p c hc with hp | ⟨m', hm', hle⟩
        · exact .inl (Nat.le_trans hp (grows.walked p))
        · rcases List.mem_cons.1 hm' with he | hm'
          · cases he
            exact .inl (by simpa using hle)
          · exact .inr ⟨m', List.mem_append_left _ hm', hle⟩
    · intro r b hr hb
      by_cases hbi : i = b
      · subst hbi
        obtain ⟨-, -, name, -, -, -, -, hk⟩ := o.exists_sibling_of_resolution hr
        refine .inr ⟨.maybeDirty, List.mem_append_right _ (mem_onwards.2 (.inl ⟨?_, hr, rfl⟩))⟩
        simp [Tree.kindIs, hk, NodeKind.isBind]
      · simp only [hother hbi] at hb
        rcases h.refer r b hr hb with hp | ⟨m', hm'⟩
        · exact .inl (Nat.lt_of_lt_of_le hp (grows.walked r))
        · rcases List.mem_cons.1 hm' with he | hm'
          · cases he
            exact .inl (by simpa using m.rank_pos)
          · exact .inr ⟨m', List.mem_append_left _ hm'⟩
    · intro j hj
      by_cases hij : i = j
      · subst hij
        simp only [hself, Mark.level_some] at hj
        obtain rfl : m = .maybeDirty := by cases m <;> simp at hj ⊢
        exact (h.queued i List.mem_cons_self).mono grows.walked
      · simp only [hother hij] at hj
        exact (h.reason j hj).mono grows.walked
    · intro j hj
      rcases List.mem_append.1 hj with hj | hj
      · exact (h.queued j (List.mem_cons_of_mem _ hj)).mono grows.walked
      · rcases mem_onwards.1 hj with ⟨-, hr, -⟩ | ⟨hp, -⟩
        · exact .inr ⟨i, hr, by simpa using m.rank_pos⟩
        · exact .inl ⟨i, o.parent_iff.1 hp, by simpa using m.rank_pos⟩

/-- How often a node can still be walked. -/
def slack (walked : NodeMap Mark) (i : NodeId) : Nat := 2 - level walked[i]?

/-- How many visits a node can still cause: one at its parent for each walk of it, and one at itself
for each walk of the bind that it refers to. -/
def dues (t : Tree) (walked : NodeMap Mark) (i : NodeId) : Nat :=
  slack walked i + match t.resolution? i with
    | some (.bind b) => slack walked b
    | _ => 0

/-- How many visits there can be besides those in the queue. -/
def potential (t : Tree) (walked : NodeMap Mark) : Nat := (t.ids.map (dues t walked)).sum

theorem sum_map_le_mul (f : NodeId → Nat) (n : Nat) (h : ∀ i, f i ≤ n) (ids : List NodeId) :
    (ids.map f).sum ≤ n * ids.length := by
  induction ids with
  | nil => simp
  | cons i rest ih =>
    have := h i
    simp only [List.map_cons, List.sum_cons, List.length_cons, Nat.mul_succ]
    omega

theorem potential_le (walked : NodeMap Mark) : potential t walked ≤ 4 * t.size := by
  have hs (i : NodeId) : slack walked i ≤ 2 := Nat.sub_le _ _
  have h (i : NodeId) : dues t walked i ≤ 4 := by
    unfold dues
    split
    · exact Nat.add_le_add (hs i) (hs _)
    · have := hs i
      omega
  simpa [potential, Tree.ids] using sum_map_le_mul _ 4 h t.ids

/-- Walking from a node takes one visit off it, and one off each reference to it. -/
theorem dues_insert {walked : NodeMap Mark} {i : NodeId} {m : Mark}
    (h : level walked[i]? < m.rank) (j : NodeId) :
    dues t (walked.insert i m) j + (if j = i then 1 else 0) +
      (if t.resolution? j = some (.bind i) then 1 else 0) ≤ dues t walked j := by
  have hm := m.rank_le
  have hslack (k : NodeId) :
      slack (walked.insert i m) k + (if k = i then 1 else 0) ≤ slack walked k := by
    unfold slack
    by_cases hk : i = k
    · subst hk
      simp
      omega
    · simp [Std.ExtTreeMap.getElem?_insert, hk, Ne.symm hk]
  have hj := hslack j
  unfold dues
  cases hr : t.resolution? j with
  | none =>
    simp only [reduceCtorEq, if_false]
    omega
  | some r =>
    cases r with
    | bind b =>
      have hb := hslack b
      simp only [Option.some.injEq, Resolution.bind.injEq]
      omega
    | parameter f k =>
      simp only [Option.some.injEq, reduceCtorEq, if_false]
      omega
    | global =>
      simp only [Option.some.injEq, reduceCtorEq, if_false]
      omega

theorem sum_dues_insert {walked : NodeMap Mark} {i : NodeId} {m : Mark}
    (h : level walked[i]? < m.rank) (ids : List NodeId) :
    (ids.map (dues t (walked.insert i m))).sum + ids.count i +
      (ids.filter fun r => t.resolution? r == some (.bind i)).length ≤
    (ids.map (dues t walked)).sum := by
  induction ids with
  | nil => simp
  | cons j rest ih =>
    have hj := dues_insert (t := t) h j
    rw [List.map_cons, List.sum_cons, List.map_cons, List.sum_cons, List.count_cons,
      List.filter_cons]
    by_cases hr : t.resolution? j = some (.bind i)
    · simp only [hr, beq_self_eq_true, if_true, List.length_cons, beq_iff_eq] at hj ⊢
      omega
    · simp only [hr, beq_iff_eq, if_false] at hj ⊢
      omega

theorem length_onwards_le (i : NodeId) (m : Mark) :
    (onwards (.ofTree t) i m).length ≤
      (t.ids.filter fun r => t.resolution? r == some (.bind i)).length + 1 := by
  have hr : (Program.ofTree t).analysis.referrersOf i =
      t.ids.filter fun r => t.resolution? r == some (.bind i) := Analysis.referrersOf_eq i
  unfold onwards
  rw [hr]
  cases (Program.ofTree t).tree.parent? i <;>
    cases (Program.ofTree t).tree.kindIs NodeKind.isBind i <;> simp

/-- Every visit uses up one of those that were still possible. -/
theorem potential_visit (s : Staleness) (rest : List (NodeId × Mark)) (raised : List NodeId)
    (i : NodeId) (m : Mark) :
    let w := Walk.visit (.ofTree t) ⟨s, rest, raised⟩ i m
    w.queue.length + potential t w.staleness.walked ≤ rest.length + potential t s.walked := by
  intro w
  rcases visit_cases (t := t) ⟨s, rest, raised⟩ i m with ⟨hw, -⟩ | ⟨marks, raised', hw, hs, hlt, -⟩
  · have hw : w = ⟨s, rest, raised⟩ := hw
    rw [hw]
  · have hw : w = ⟨⟨marks, s.walked.insert i m⟩, rest ++ onwards (.ofTree t) i m, raised'⟩ := hw
    have hlt : level s.walked[i]? < m.rank := hlt
    have hon := length_onwards_le (t := t) i m
    have hsum := sum_dues_insert (t := t) hlt t.ids
    have hcount : 0 < t.ids.count i :=
      List.count_pos_iff.2 (List.mem_range.2 (Tree.lt_size_iff.2 hs))
    rw [hw]
    simp only [potential, List.length_append]
    omega

theorem queue_run (n : Nat) (w : Walk)
    (h : w.queue.length + potential t w.staleness.walked ≤ n) :
    (Walk.run (.ofTree t) n w).queue = [] := by
  induction n generalizing w with
  | zero =>
    rw [Walk.run]
    exact List.eq_nil_of_length_eq_zero (by omega)
  | succ n ih =>
    obtain ⟨s, queue, raised⟩ := w
    cases queue with
    | nil => rfl
    | cons x rest =>
      obtain ⟨i, m⟩ := x
      have hv := potential_visit (t := t) s rest raised i m
      simp only [List.length_cons] at h
      exact ih (Walk.visit (.ofTree t) ⟨s, rest, raised⟩ i m) (by omega)

theorem walking_run (o : t.Ordered) {left : NodeId → Prop} (n : Nat) (w : Walk)
    (h : Walking t left w.staleness w.queue) :
    let w' := Walk.run (.ofTree t) n w
    Walking t left w'.staleness w'.queue ∧ Grows w.staleness w'.staleness := by
  induction n generalizing w with
  | zero => exact ⟨h, Grows.refl _⟩
  | succ n ih =>
    obtain ⟨s, queue, raised⟩ := w
    cases queue with
    | nil => exact ⟨h, Grows.refl _⟩
    | cons x rest =>
      obtain ⟨i, m⟩ := x
      obtain ⟨hv, -⟩ := walking_visit o (r := raised) h
      obtain ⟨hr, hg⟩ := ih _ hv
      exact ⟨hr, (grows_visit ⟨s, rest, raised⟩ i m).trans hg⟩

end Walk

open Walk (Grows)

/-- Marking what depends on a reader keeps what holds of the marks and walks from the reader. -/
theorem walked_markChanged (o : t.Ordered) {left : NodeId → Prop} {s : Staleness}
    (h : Walked t left s) (reader : NodeId) :
    let s' := (s.markChanged (.ofTree t) reader).2
    Walked t left s' ∧ Grows s s' ∧ (reader < t.size → s'.walked[reader]? = some .dirty) := by
  have h0 : Walking t left s [(reader, .dirty)] := by
    refine ⟨h.walked_le, h.sync, ?_, ?_, h.reason, by simp⟩
    · intro p c hc
      rcases h.up p c hc with hp | ⟨m, hm, -⟩
      · exact .inl hp
      · simp at hm
    · intro r b hr hb
      rcases h.refer r b hr hb with hp | ⟨m, hm⟩
      · exact .inl hp
      · simp at hm
  have hq := Walk.queue_run (t := t) (4 * t.size + 1) ⟨s, [(reader, .dirty)], []⟩
    (by have := Walk.potential_le (t := t) s.walked; simp; omega)
  obtain ⟨hw, hg⟩ := Walk.walking_run o (4 * t.size + 1) ⟨s, [(reader, .dirty)], []⟩ h0
  refine ⟨?_, hg, ?_⟩
  · have hw' := hw
    rw [hq] at hw'
    exact hw'
  · intro hlt
    obtain ⟨hv, hself⟩ := Walk.walking_visit o (r := []) h0
    have hn : (t.node? reader).isSome := Tree.lt_size_iff.1 hlt
    have hg' := (Walk.walking_run o (4 * t.size) _ hv).2.walked reader
    have h2 := Nat.le_trans (hself hn) hg'
    have hle := Mark.level_le (s.markChanged (.ofTree t) reader).2.walked[reader]?
    exact Mark.level_eq_two_iff.1 (Nat.le_antisymm hle h2)

theorem walked_markAllChanged (o : t.Ordered) {left : NodeId → Prop} (readers : List NodeId)
    {s : Staleness} (h : Walked t left s) :
    let s' := s.markAllChanged (.ofTree t) readers
    Walked t left s' ∧ Grows s s' ∧
      ∀ i ∈ readers, i < t.size → s'.walked[i]? = some .dirty := by
  induction readers generalizing s with
  | nil => exact ⟨h, Grows.refl s, by simp⟩
  | cons i rest ih =>
    obtain ⟨h1, g1, hi⟩ := walked_markChanged o h i
    obtain ⟨h2, g2, hrest⟩ := ih h1
    refine ⟨h2, g1.trans g2, ?_⟩
    intro j hj hlt
    rcases List.mem_cons.1 hj with rfl | hj
    · have hle := g2.walked j
      rw [hi hlt] at hle
      exact Mark.eq_dirty_of_le hle
    · exact hrest j hj hlt

end Staleness
end StreamLang
