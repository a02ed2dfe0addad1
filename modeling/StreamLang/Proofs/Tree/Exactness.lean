import Mathlib.Data.List.Nodup
import Mathlib.Tactic.MkIffOfInductiveProp
import StreamLang.Proofs.Tree.Dependencies
/-!
The dependencies of a node are exact. They are collected from the children up, and a bind is dropped
as soon as a node contains it, so that at every node there remain just the binds outside of it that
its references mean, each of them once (`Tree.Accepted.dependencies_exact`).
-/
namespace StreamLang

variable {t : Tree}

namespace Analysis

/-- A bind that has been found is not added again. -/
theorem nodup_addDependencies (i : NodeId) {found : List NodeId} (more : List NodeId)
    (h : found.Nodup) : (t.addDependencies i found more).Nodup := by
  unfold Tree.addDependencies
  induction more generalizing found with
  | nil => exact h
  | cons b rest ih =>
    rw [List.foldl_cons]
    split
    · exact ih h
    · rename_i hb
      refine ih (List.nodup_append.2 ⟨h, List.nodup_singleton b, fun x hx y hy => ?_⟩)
      rw [List.mem_singleton.1 hy]
      rintro rfl
      simp [hx] at hb

theorem nodup_dependenciesFrom (below : Array (List NodeId)) (i : NodeId) :
    (t.dependenciesFrom below i).Nodup := by
  refine List.foldlRecOn (motive := List.Nodup) _ _ ?_
    fun found h c _ => nodup_addDependencies i _ h
  split <;> simp

theorem nodup_dependencies (i : NodeId) : ((ofTree t).dependencies i).Nodup := by
  have all : ∀ l ∈ (ofTree t).dependencyLists, l.Nodup := by
    refine List.foldlRecOn (motive := fun lists : Array (List NodeId) => ∀ l ∈ lists, l.Nodup) _ _
      (by simp) fun below h j _ l hl => ?_
    rcases Array.mem_push.1 hl with hl | rfl
    · exact h l hl
    · exact nodup_dependenciesFrom below j
  rw [dependencies, Array.getD_eq_getD_getElem?]
  cases hl : (ofTree t).dependencyLists[i]? with
  | none => exact List.nodup_nil
  | some l => exact all l (Array.mem_of_getElem? hl)

theorem nodup_referrersOf (b : NodeId) : ((ofTree t).referrersOf b).Nodup := by
  rw [referrersOf_eq]
  exact List.nodup_range.filter _

end Analysis

/-- In a tree the dependencies of a node are binds, each of them once, and a bind is among them just
if a reference in the node means it and it does not lie in the node itself; the referrers of a bind
are the references that mean it. -/
theorem Tree.Accepted.dependencies_exact (h : t.Accepted) :
    (∀ n, ((Analysis.ofTree t).dependencies n).Nodup ∧
      ∀ b, b ∈ (Analysis.ofTree t).dependencies n ↔
        (∃ name, t.kind? b = some (.bind name)) ∧ ¬ t.Within n b ∧
          ∃ r name, t.Within n r ∧ t.kind? r = some (.reference name) ∧
            (Analysis.ofTree t).resolution? r = some (.bind b)) ∧
    ∀ b, ((Analysis.ofTree t).referrersOf b).Nodup ∧
      ∀ r, r ∈ (Analysis.ofTree t).referrersOf b ↔
        (Analysis.ofTree t).resolution? r = some (.bind b) := by
  refine ⟨fun n => ⟨Analysis.nodup_dependencies n, fun b => ?_⟩,
    fun b => ⟨Analysis.nodup_referrersOf b, fun r => ?_⟩⟩
  · rw [Analysis.mem_dependencies h.ordered]
    simp only [Analysis.resolution?_ofTree]
    constructor
    · rintro ⟨r, hw, hr, hn⟩
      obtain ⟨-, -, bound, -, -, -, -, hb⟩ := h.ordered.exists_sibling_of_resolution hr
      obtain ⟨name, hk, -⟩ := Tree.resolution?_eq_some hr
      exact ⟨⟨bound, hb⟩, hn, r, name, hw, hk, hr⟩
    · rintro ⟨-, hn, r, -, hw, -, hr⟩
      exact ⟨r, hw, hr, hn⟩
  · rw [Analysis.mem_referrersOf, Analysis.resolution?_ofTree]

/-! A function that calls itself on a bind that comes after it. -/

namespace Foretold

/-- `f = function(n) f(later)` and `later = 2`. -/
def draft : Draft :=
  ⟨#[⟨.reference "f", [], none, none⟩, ⟨.reference "later", [], none, none⟩,
    ⟨.call, [0, 1], none, none⟩, ⟨.function ["n"], [2], none, none⟩,
    ⟨.bind "f", [3], none, none⟩, ⟨.text "two", [], none, none⟩,
    ⟨.bind "later", [5], none, none⟩, ⟨.block, [4, 6], none, none⟩]⟩

def tree : Tree := ((draft.finish 7).toOption).getD ⟨#[], 0⟩

/-- What can be read off the tree. -/
@[mk_iff]
structure Checked : Prop where
  built : draft.finish 7 = .ok tree
  function : 4 ∈ (Analysis.ofTree tree).dependencies 3
  later : 6 ∈ (Analysis.ofTree tree).dependencies 4
  own : 4 ∉ (Analysis.ofTree tree).dependencies 4

theorem checked : Checked := checked_iff.2 (by decide +kernel)

end Foretold

open Foretold in
/-- The function depends on the bind that holds it, which does not depend on itself but on the later
one. -/
theorem Foretold.tree_exact :
    tree.Accepted ∧ ¬ tree.Within 3 4 ∧ ¬ tree.Within 4 6 ∧
      (∃ r name, tree.Within 4 r ∧ tree.kind? r = some (.reference name) ∧
        (Analysis.ofTree tree).resolution? r = some (.bind 6)) ∧
      ((Analysis.ofTree tree).dependencies 4).count 6 = 1 := by
  have accepted : tree.Accepted := ⟨draft, 7, checked.built⟩
  have exact := accepted.dependencies_exact.1
  obtain ⟨-, outer, -⟩ := ((exact 3).2 4).1 checked.function
  obtain ⟨-, after, read⟩ := ((exact 4).2 6).1 checked.later
  exact ⟨accepted, outer, after, read, List.count_eq_one_of_mem (exact 4).1 checked.later⟩

end StreamLang
