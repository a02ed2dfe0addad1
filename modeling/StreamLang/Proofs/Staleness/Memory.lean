import Mathlib.Order.MinMax
import Mathlib.Tactic.MkIffOfInductiveProp
import StreamLang.Proofs.Staleness.Cone
/-!
What walks remember. A walk skips whatever has been walked at least as strongly since the last
cleaning. Nothing is lost by that, whatever is done to the marks in between: a change at a reader
leaves every node with the stronger of the mark that it had and of the one that a walk without any
memory would give it (`Staleness.marks_as_unremembered`).
-/
namespace StreamLang

namespace Mark

/-- The stronger of two marks, where there are any. -/
def join : Option Mark → Option Mark → Option Mark
  | none, b => b
  | some a, b => some ((b.map a.max).getD a)

theorem rank_max (a b : Mark) : (a.max b).rank = Max.max a.rank b.rank := by
  cases a <;> cases b <;> rfl

theorem level_join (a b : Option Mark) : level (join a b) = Max.max (level a) (level b) := by
  cases a with
  | none => exact (Nat.zero_max _).symm
  | some a =>
    cases b with
    | none => exact (Nat.max_zero _).symm
    | some b => exact rank_max a b

end Mark

/-- What a change at a reader brings into doubt: all that refers to a bind which the change comes
to, and all that lies around such a reference. The change comes to what lies around the reader and
to what it has brought into doubt. -/
inductive Tree.Doubted (t : Tree) (reader : NodeId) : NodeId → Prop where
  | around {r b} (h : t.isAncestorOrSelf b reader = true)
    (hr : r ∈ (Analysis.ofTree t).referrersOf b) : Doubted t reader r
  | onwards {r b} (h : Doubted t reader b) (hr : r ∈ (Analysis.ofTree t).referrersOf b) :
    Doubted t reader r
  | above {p c} (h : Doubted t reader c) (hc : c ∈ t.children p) : Doubted t reader p

namespace Staleness

open Mark (level)

open Classical in
/-- The mark that a change at a reader gives to a node, whatever has been marked or walked before.
-/
noncomputable def change (t : Tree) (reader i : NodeId) : Option Mark :=
  if ¬ reader < t.size then none
  else if t.isAncestorOrSelf i reader then some .dirty
  else if t.Doubted reader i then some .maybeDirty
  else none

variable {t : Tree} {left : NodeId → Prop} {s : Staleness} {reader i p c r b : NodeId}

theorem change_of_around (hlt : reader < t.size) (h : t.isAncestorOrSelf i reader = true) :
    change t reader i = some .dirty := by
  rw [change, if_neg (not_not_intro hlt), if_pos h]

theorem change_self (hlt : reader < t.size) : change t reader reader = some .dirty :=
  change_of_around hlt (by simp [Tree.isAncestorOrSelf])

theorem change_cases (t : Tree) (reader i : NodeId) : change t reader i = none ∨
    reader < t.size ∧ (t.isAncestorOrSelf i reader = true ∧ change t reader i = some .dirty ∨
      t.Doubted reader i ∧ change t reader i = some .maybeDirty) := by
  unfold change
  split
  · exact .inl rfl
  · have hlt : reader < t.size := not_not.1 ‹_›
    split
    · exact .inr ⟨hlt, .inl ⟨‹_›, rfl⟩⟩
    · split
      · exact .inr ⟨hlt, .inr ⟨‹_›, rfl⟩⟩
      · exact .inl rfl

theorem change_pos_of_doubted (hlt : reader < t.size) (h : t.Doubted reader i) :
    0 < level (change t reader i) := by
  rw [change, if_neg (not_not_intro hlt), if_pos h]
  split
  · exact Nat.two_pos
  · exact Nat.one_pos

/-- Marks go up, and from a bind to what refers to it. -/
theorem closed_change (o : t.Ordered) (reader : NodeId) :
    Closed t fun i => level (change t reader i) where
  up p c hc := by
    rcases change_cases t reader c with h | ⟨hlt, ⟨hw, h⟩ | ⟨hd, h⟩⟩
    · rw [h]
      exact Nat.zero_le _
    · have hp : t.isAncestorOrSelf p reader = true :=
        o.isAncestorOrSelf_iff.2 ((Tree.Within.child hc).trans (o.isAncestorOrSelf_iff.1 hw))
      rw [h, change_of_around hlt hp]
    · rw [h]
      exact change_pos_of_doubted hlt (.above hd hc)
  refer r b hb hpos := by
    have hr : r ∈ (Analysis.ofTree t).referrersOf b := Analysis.mem_referrersOf.2 hb
    rcases change_cases t reader b with h | ⟨hlt, ⟨hw, -⟩ | ⟨hd, -⟩⟩
    · rw [h] at hpos
      cases hpos
    · exact change_pos_of_doubted hlt (.around hw hr)
    · exact change_pos_of_doubted hlt (.onwards hd hr)

/-- Whatever is closed and has the reader has all that a change at the reader comes to. -/
theorem Closed.change_le {G : NodeId → Nat} (o : t.Ordered) (g : Closed t G)
    (hreader : reader < t.size → 2 ≤ G reader) : level (change t reader i) ≤ G i := by
  have around (hlt : reader < t.size) {i : NodeId} (h : t.isAncestorOrSelf i reader = true) :
      2 ≤ G i := (hreader hlt).trans (g.within (o.isAncestorOrSelf_iff.1 h))
  rcases change_cases t reader i with h | ⟨hlt, ⟨hw, h⟩ | ⟨hd, h⟩⟩
  · rw [h]
    exact Nat.zero_le _
  · rw [h]
    exact around hlt hw
  · rw [h]
    show 0 < G i
    clear h
    induction hd with
    | around h hr =>
      exact g.refer _ _ (Analysis.mem_referrersOf.1 hr) (Nat.two_pos.trans_le (around hlt h))
    | onwards _ hr ih => exact g.refer _ _ (Analysis.mem_referrersOf.1 hr) ih
    | above _ hc ih => exact ih.trans_le (g.up _ _ hc)

/-- A change at a reader raises every mark to the one that the change alone would give. -/
theorem mark?_markChanged (o : t.Ordered) (h : Walked t left s) (reader i : NodeId) :
    (s.markChanged (.ofTree t) reader).2.mark? i =
      Mark.join (s.mark? i) (change t reader i) := by
  let s' := (s.markChanged (.ofTree t) reader).2
  obtain ⟨hwalked, -, hdirty⟩ := walked_markChanged o h reader
  have hlower : level (change t reader i) ≤ level s'.walked[i]? :=
    hwalked.closed.change_le o fun hlt => Nat.le_of_eq (congrArg level (hdirty hlt)).symm
  have hbound : Closed t fun i => max (level s.walked[i]?) (level (change t reader i)) := by
    have hc := closed_change o reader
    refine ⟨fun p c hpc => ?_, fun r b hb hpos => ?_⟩
    · exact Nat.max_le.2 ⟨(h.closed.up p c hpc).trans (Nat.le_max_left _ _),
        (hc.up p c hpc).trans (Nat.le_max_right _ _)⟩
    · rcases lt_max_iff.1 hpos with hpos | hpos
      · exact lt_max_iff.2 (.inl (h.closed.refer r b hb hpos))
      · exact lt_max_iff.2 (.inr (hc.refer r b hb hpos))
  obtain ⟨hupper, hraised⟩ := least_markAllChanged o hbound [reader] (fun _ => Nat.le_max_left _ _)
    (fun j hj hlt => by
      obtain rfl := List.mem_singleton.1 hj
      rw [change_self hlt]
      exact Nat.le_max_right _ _) h.raised
  have hupper : level s'.walked[i]? ≤ max (level s.walked[i]?) (level (change t reader i)) :=
    hupper i
  have hraised : level (s'.mark? i) = max (level (s.mark? i)) (level s'.walked[i]?) := hraised i
  have hle := h.walked_le i
  refine Mark.level_injective ?_
  show level (s'.mark? i) = _
  rw [Mark.level_join, hraised]
  omega

namespace Walk

/-- A walk that has come to its end stays there. -/
theorem run_of_le {p : Program} {n m : Nat} {w : Walk} (h : (run p n w).queue = []) (hle : n ≤ m) :
    run p m w = run p n w := by
  induction n generalizing w m with
  | zero =>
    have hw : w.queue = [] := h
    cases m with
    | zero => rfl
    | succ m => simp only [run, hw]
  | succ n ih =>
    obtain ⟨m, rfl⟩ : ∃ m', m = m' + 1 := ⟨m - 1, by omega⟩
    unfold run at h ⊢
    split at h
    · rfl
    · exact ih h (by omega)

end Walk

/-- What may be done to the marks of a tree. -/
inductive Act where
  | markChanged (reader : NodeId)
  /-- Marks a node at least as strongly as this; to be clean asks for nothing. -/
  | raise (i : NodeId) (m : Option Mark)
  | markClean (i : NodeId)
  | cleanSubtree (i : NodeId)
  | promote

/-- The marks after one act. -/
def act (t : Tree) (s : Staleness) : Act → Staleness
  | .markChanged reader => (s.markChanged (.ofTree t) reader).2
  | .raise _ none => s
  | .raise i (some m) => s.raise i m
  | .markClean i => s.markClean i
  | .cleanSubtree i => s.cleanSubtree t i
  | .promote => s.promote

/-- The marks of a tree, none at first, after one act after another. -/
def after (t : Tree) (acts : List Act) : Staleness := acts.foldl (act t) .empty

/-- Where walks have been forgotten, they prove nothing. -/
theorem walked_of_forgotten (h : s.walked = ∅) : Walked t (fun _ => True) s := by
  have hnone (i : NodeId) : s.walked[i]? = none := by rw [h]; exact Std.ExtTreeMap.getElem?_empty
  refine ⟨fun i => ?_, fun i hi => absurd trivial hi, fun p c _ => .inl ?_, fun r b _ hb => ?_,
    fun i hi => ?_, by simp⟩
  · rw [hnone]
    exact Nat.zero_le _
  · rw [hnone, hnone]
  · simp [hnone] at hb
  · simp [hnone] at hi

/-- Marks that were raised by hand are above what walks have left. -/
theorem Walking.of_raised {s' : Staleness} (h : Walked t (fun _ => True) s)
    (hwalked : s'.walked = s.walked) (hle : ∀ i, level (s.mark? i) ≤ level (s'.mark? i)) :
    Walked t (fun _ => True) s' := by
  refine ⟨fun i => ?_, fun i hi => absurd trivial hi, ?_, ?_, ?_, by simp⟩
  · rw [hwalked]
    exact (h.walked_le i).trans (hle i)
  · rw [hwalked]
    exact h.up
  · rw [hwalked]
    exact h.refer
  · rw [hwalked]
    exact h.reason

theorem level_le_raise (s : Staleness) (i j : NodeId) (m : Mark) :
    level (s.mark? j) ≤ level ((s.raise i m).mark? j) := by
  rw [mark?_raise]
  split
  · rename_i hij
    subst hij
    cases s.mark? i with
    | none => exact Nat.zero_le _
    | some a =>
      show a.rank ≤ (Mark.max m a).rank
      rw [Mark.rank_max]
      exact Nat.le_max_right _ _
  · exact Nat.le_refl _

theorem level_le_promote (s : Staleness) (i : NodeId) :
    level (s.mark? i) ≤ level (s.promote.mark? i) := by
  rw [mark?_promote]
  cases s.mark? i with
  | none => exact Nat.le_refl _
  | some a => exact a.rank_le

/-- Whatever is done, what was walked is closed, and marked at least as strongly. -/
theorem Walking.act (o : t.Ordered) (h : Walked t (fun _ => True) s) (a : Act) :
    Walked t (fun _ => True) (s.act t a) := by
  cases a with
  | markChanged reader => exact (walked_markChanged o h reader).1
  | raise i m =>
    cases m with
    | none => exact h
    | some m => exact h.of_raised rfl fun j => level_le_raise s i j m
  | markClean i => exact walked_of_forgotten rfl
  | cleanSubtree i => exact walked_of_forgotten rfl
  | promote => exact h.of_raised rfl (level_le_promote s)

theorem walked_after (o : t.Ordered) (acts : List Act) :
    Walked t (fun _ => True) (after t acts) := by
  have key (s : Staleness) (h : Walked t (fun _ => True) s) :
      Walked t (fun _ => True) (acts.foldl (Staleness.act t) s) := by
    induction acts generalizing s with
    | nil => exact h
    | cons a rest ih => exact ih _ (h.act o a)
  exact key .empty (walked_of_forgotten rfl)

/-- Whatever has been done to the marks of a tree, marking what depends on a reader comes to an end,
also where a bind is referred to from within itself. Every node then has the stronger of its mark
before and of the mark that the change gives: dirty around the reader, in doubt where the change
comes to by references. The marks are those that a walk without memory would leave, and those of
many readers do not depend on their order. -/
theorem marks_as_unremembered (ht : t.Accepted) (acts : List Act) :
    let s := after t acts
    (∀ reader,
      (∃ w : Walk, w.queue = [] ∧ s.markChanged (.ofTree t) reader = (w.raised, w.staleness) ∧
        ∃ n, ∀ m ≥ n, Walk.run (.ofTree t) m ⟨s, [(reader, .dirty)], []⟩ = w) ∧
      (∀ i, (s.markChanged (.ofTree t) reader).2.mark? i =
        Mark.join (s.mark? i) (change t reader i)) ∧
      ∀ i, (s.markChanged (.ofTree t) reader).2.mark? i =
        ((⟨s.marks, ∅⟩ : Staleness).markChanged (.ofTree t) reader).2.mark? i) ∧
    ∀ xs ys, xs.Perm ys → s.markAllChanged (.ofTree t) xs = s.markAllChanged (.ofTree t) ys := by
  intro s
  have o := ht.ordered
  have h : Walked t (fun _ => True) s := walked_after o acts
  refine ⟨fun reader => ⟨?_, mark?_markChanged o h reader, fun i => ?_⟩, fun xs ys hperm => ?_⟩
  · have hends :
        (Walk.run (.ofTree t) (4 * t.size + 1) ⟨s, [(reader, .dirty)], []⟩).queue = [] := by
      refine Walk.queue_run _ _ ?_
      have hpotential := Walk.potential_le (t := t) s.walked
      simp only [List.length_singleton]
      omega
    exact ⟨_, hends, rfl, 4 * t.size + 1, fun m hm => Walk.run_of_le hends hm⟩
  · have hforgotten : Walked t (fun _ => True) ⟨s.marks, ∅⟩ := walked_of_forgotten rfl
    rw [mark?_markChanged o h, mark?_markChanged o hforgotten]
    rfl
  · exact markAllChanged_congr o h fun i => hperm.mem_iff

end Staleness

/-! A function that calls itself and reads the keyboard, bound to a name and called. A key brings
the bind into doubt from within itself. -/

namespace Recursion

def draft : Draft :=
  ⟨#[⟨.reference "f", [], none, none⟩, ⟨.stream "keyboard", [], none, none⟩,
    ⟨.call, [0, 1], none, none⟩, ⟨.function ["n"], [2], none, none⟩, ⟨.bind "f", [3], none, none⟩,
    ⟨.reference "f", [], none, none⟩, ⟨.text "a", [], none, none⟩, ⟨.call, [5, 6], none, none⟩,
    ⟨.block, [4, 7], none, none⟩]⟩

def tree : Tree := ((draft.finish 8).toOption).getD ⟨#[], 0⟩

/-- A key comes, the call is found to be up to date and what is in doubt becomes certain. The text
is marked by hand. -/
def acts : List Staleness.Act :=
  [.markChanged 1, .markClean 9, .cleanSubtree 7, .promote, .raise 6 (some .maybeDirty)]

/-- The marks of all nodes. -/
def marks (s : Staleness) : List (Option Mark) := tree.ids.map s.mark?

/-- What can be read off the tree and its marks. -/
@[mk_iff]
structure Checked : Prop where
  built : draft.finish 8 = .ok tree
  within : tree.resolution? 0 = some (.bind 4)
  before : marks (Staleness.after tree acts) = [some .dirty, some .dirty, some .dirty, some .dirty,
    some .dirty, none, some .maybeDirty, none, some .dirty, none]
  after : marks ((Staleness.after tree acts).markChanged (.ofTree tree) 1).2 = [some .dirty,
    some .dirty, some .dirty, some .dirty, some .dirty, some .maybeDirty, some .maybeDirty,
    some .maybeDirty, some .dirty, some .dirty]

theorem checked : Checked := checked_iff.2 (by decide +kernel)

theorem mark?_eq {s : Staleness} {ms : List (Option Mark)} {m : Option Mark} (h : marks s = ms)
    (i : NodeId) (hm : ms[i]? = some m) : s.mark? i = m := by
  subst h
  obtain ⟨_, h⟩ := List.getElem?_eq_some_iff.1 hm
  simpa [marks, Tree.ids] using h

end Recursion

open Recursion in
/-- The key gives the reference in the call, which had no mark, the one that the change gives it. -/
theorem Recursion.reference_marked :
    tree.Accepted ∧ tree.resolution? 0 = some (.bind 4) ∧
    (∃ w : Staleness.Walk, w.queue = [] ∧
      (Staleness.after tree acts).markChanged (.ofTree tree) 1 = (w.raised, w.staleness)) ∧
    (Staleness.after tree acts).mark? 5 = none ∧
    ((Staleness.after tree acts).markChanged (.ofTree tree) 1).2.mark? 5 = some .maybeDirty ∧
    Staleness.change tree 1 5 = some .maybeDirty ∧
    (Staleness.after tree acts).markAllChanged (.ofTree tree) [1, 5] =
      (Staleness.after tree acts).markAllChanged (.ofTree tree) [5, 1] := by
  have built : tree.Accepted := ⟨draft, 8, checked.built⟩
  obtain ⟨hmarks, horder⟩ := Staleness.marks_as_unremembered built acts
  obtain ⟨⟨w, hw, hrun, -⟩, hjoin, -⟩ := hmarks 1
  have hbefore : (Staleness.after tree acts).mark? 5 = none := mark?_eq checked.before 5 rfl
  have hafter : ((Staleness.after tree acts).markChanged (.ofTree tree) 1).2.mark? 5 =
      some .maybeDirty := mark?_eq checked.after 5 rfl
  have hchange := hjoin 5
  rw [hbefore, hafter] at hchange
  exact ⟨built, checked.within, ⟨w, hw, hrun⟩, hbefore, hafter, hchange.symm,
    horder _ _ (.swap 5 1 [])⟩

end StreamLang
