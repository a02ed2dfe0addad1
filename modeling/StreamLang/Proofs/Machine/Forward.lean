import StreamLang.Proofs.Machine.Heights
/-!
Steps only lead forward. Whatever way a frame takes through the steps of its node, it comes to each of
them at most once, and each part of the node is evaluated by one step at most.
-/
namespace StreamLang

namespace Step

/-- A step at `p` among so many leads to later steps only. -/
def Forward (p length : Nat) : Step → Prop
  | jump target | jumpIfInitialized target => p < target
  | jumpIfFalse target => p < target ∧ p + 1 < length
  | _ => True

/-- The position of the part that a step evaluates. -/
def part? : Step → Option Nat
  | evaluate index => some index
  | _ => none

theorem forward_of_goesOn {a : Step} (h : a.goesOn = true) (p length : Nat) : a.Forward p length := by
  cases a <;> trivial

end Step

namespace Tree

variable {t : Tree} {i : NodeId} {p q k : Nat} {a : Step}

theorem lt_size_of_steps (h : (t.steps i)[p]? = some a) : i < t.size := by
  rw [lt_size_iff]
  cases hn : t.node? i with
  | none => simp [steps, hn] at h
  | some n => rfl

theorem Ordered.forward (o : t.Ordered) (ha : (t.steps i)[p]? = some a) :
    a.Forward p (t.steps i).length := by
  rcases o.straight (lt_size_of_steps ha) with h | ⟨n, hw, hk⟩
  · rcases (h.get ha).2 with ⟨h, -⟩ | rfl
    · exact Step.forward_of_goesOn h _ _
    · trivial
  have hp := (List.getElem?_eq_some_iff.1 ha).1
  rw [hw.steps] at ha hp ⊢
  rcases hk with hk | hk
  · simp only [hk, kindSteps, List.length_cons, List.length_nil] at ha hp ⊢
    interval_cases p <;> cases ha <;> simp [Step.Forward]
  · by_cases hc : n.children.length = 2
    · simp only [hk, kindSteps, hc, if_true, List.length_cons, List.length_nil] at ha hp ⊢
      interval_cases p <;> cases ha <;> simp [Step.Forward]
    · simp only [hk, kindSteps, hc, if_false, List.length_cons, List.length_nil] at ha hp ⊢
      interval_cases p <;> cases ha <;> simp [Step.Forward]

/-! ### Each part once -/

theorem parts_collectSteps (count : Nat) (o : Operation) :
    (collectSteps count o).filterMap Step.part? = List.range count := by
  have h : (Step.part? ∘ Step.evaluate) = some := rfl
  simp [collectSteps, List.filterMap_map, h, Step.part?]

/-- The operators of a chain, each with the position of the operand on its left. -/
theorem parts_chain (operators : List BinaryOperator) (k : Nat) :
    ((operators.zipIdx k).flatMap fun (o, k) => [.evaluate (k + 1), .apply (.binary o)]).filterMap
      Step.part? = List.range' (k + 1) operators.length := by
  induction operators generalizing k with
  | nil => rfl
  | cons o operators ih =>
    rw [List.zipIdx_cons, List.flatMap_cons, List.filterMap_append, ih, List.length_cons,
      List.range'_succ]
    rfl

theorem parts_chainSteps (operators : List BinaryOperator) :
    (chainSteps operators).filterMap Step.part? = List.range' 0 (operators.length + 1) := by
  rw [chainSteps, List.cons_append, List.filterMap_cons, List.filterMap_append, parts_chain]
  simp [Step.part?, List.range'_succ]

theorem parts_statementSteps (t : Tree) (k : Nat) (is : List NodeId) :
    (t.statementSteps k is).filterMap Step.part? = List.range' k is.length := by
  induction is generalizing k with
  | nil => rfl
  | cons i rest ih =>
    have bound : (Machine.boundSteps t i).filterMap Step.part? = [] := by
      unfold Machine.boundSteps
      split <;> rfl
    rw [Machine.statementSteps_cons, List.filterMap_cons, List.filterMap_append, bound, List.length_cons,
      List.range'_succ]
    cases rest with
    | nil => rfl
    | cons j rest =>
      have discarded : ([Step.discard] ++ t.statementSteps (k + 1) (j :: rest)).filterMap Step.part? =
          (t.statementSteps (k + 1) (j :: rest)).filterMap Step.part? := rfl
      exact congrArg (k :: ·) (discarded.trans (ih (k + 1)))

theorem nodup_parts (t : Tree) (i : NodeId) : ((t.steps i).filterMap Step.part?).Nodup := by
  unfold steps
  cases t.node? i with
  | none => exact List.nodup_nil
  | some n =>
    simp only
    split
    · exact List.nodup_nil
    split
    · cases n.kind with
      | block =>
        simp only [kindSteps, List.filterMap_cons, Step.part?, parts_statementSteps]
        exact List.nodup_range'
      | binary operators =>
        simp only [kindSteps, parts_chainSteps]
        exact List.nodup_range'
      | list | struct | call =>
        simp only [kindSteps, parts_collectSteps]
        exact List.nodup_range
      | reaction =>
        simp only [kindSteps]
        split <;> simp [List.filterMap_cons, Step.part?]
      | previous =>
        simp only [kindSteps]
        split <;> simp [List.filterMap_cons, failSteps, Step.part?]
      | _ => simp [List.filterMap_cons, kindSteps, failSteps, Step.part?]
    · exact List.nodup_nil

/-- Each part of a node is evaluated by one of its steps at most. -/
theorem evaluate_unique (hp : (t.steps i)[p]? = some (.evaluate k))
    (hq : (t.steps i)[q]? = some (.evaluate k)) : p = q := by
  have apart := List.pairwise_iff_getElem.1 (List.pairwise_filterMap.1 (t.nodup_parts i))
  obtain ⟨hp, hp'⟩ := List.getElem?_eq_some_iff.1 hp
  obtain ⟨hq, hq'⟩ := List.getElem?_eq_some_iff.1 hq
  have same {p q : Nat} (hp : p < (t.steps i).length) (hq : q < (t.steps i).length)
      (hp' : (t.steps i)[p] = .evaluate k) (hq' : (t.steps i)[q] = .evaluate k) : ¬ p < q :=
    fun hlt => apart p q hp hq hlt k (by rw [hp']; rfl) k (by rw [hq']; rfl) rfl
  exact Nat.le_antisymm (Nat.not_lt.1 (same hq hp hq' hp')) (Nat.not_lt.1 (same hp hq hp' hq'))

end Tree
end StreamLang
