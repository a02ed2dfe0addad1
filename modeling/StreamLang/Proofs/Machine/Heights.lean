import Mathlib.Tactic.IntervalCases
import StreamLang.Proofs.Closures
import StreamLang.Proofs.Machine.Kinds
import StreamLang.Proofs.Tree.Dependencies
/-!
How many values a frame has at each of its steps. Every place in the steps of a node has one height,
whichever way it was reached: a step finds the values that it takes, and each place that it leads to
has the height that it leaves.
-/
namespace StreamLang

/-- How many values an operation takes. -/
def Operation.takes : Operation → Nat
  | .binary _ => 2
  | .unary _ | .property _ => 1
  | .makeList count => count
  | .makeStruct names => names.length
  | .call count => count + 1
  | .lookup _ | .makeFunction .. | .previous _ | .fail .. => 0

namespace Step

/-- What a step of the node `i` asks for if there are `k` values: enough of them, a child where it
evaluates one, a body in the tree where it makes a function. -/
def Ready (t : Tree) (i : NodeId) (k : Nat) : Step → Prop
  | push v => v.Every fun _ => False
  | evaluate index => index < (t.children i).length
  | apply o => o.takes ≤ k ∧
    ∀ function body parameters, o = .makeFunction function body parameters → body < t.size
  | define _ | discard | jumpIfFalse _ | finish => 0 < k
  | fetch .. | enterScope | jump _ | jumpIfInitialized _ => True

/-- The places that a step at `p` leads to among so many steps, each with its height, if there are `k`
values. A condition that is no boolean becomes the result and leads to the last step. -/
def leads (p k length : Nat) : Step → List (Nat × Nat)
  | push _ | evaluate _ | fetch .. => [(p + 1, k + 1)]
  | apply o => [(p + 1, k - o.takes + 1)]
  | define _ | enterScope => [(p + 1, k)]
  | discard => [(p + 1, k - 1)]
  | jump target => [(target, k)]
  | jumpIfFalse target => [(p + 1, k - 1), (target, k - 1), (length - 1, 1)]
  | jumpIfInitialized target => [(p + 1, k), (target, k)]
  | finish => []

end Step

/-- Every place in the steps has its height. -/
structure Heights (t : Tree) (i : NodeId) (steps : List Step) (h : Nat → Nat) : Prop where
  nonempty : 0 < steps.length
  start : h 0 = 0
  ready : ∀ (p : Nat) (a : Step), steps[p]? = some a → a.Ready t i (h p)
  leads : ∀ (p : Nat) (a : Step), steps[p]? = some a → ∀ q k, (q, k) ∈ a.leads p (h p) steps.length →
    q < steps.length ∧ h q = k

/-! ### Steps without jumps -/

namespace Step

/-- Whether a step only goes on to the next. -/
def goesOn : Step → Bool
  | jump _ | jumpIfFalse _ | jumpIfInitialized _ | finish => false
  | _ => true

/-- The height that a step leaves. -/
def height (k : Nat) : Step → Nat
  | push _ | evaluate _ | fetch .. => k + 1
  | apply o => k - o.takes + 1
  | discard => k - 1
  | _ => k

theorem leads_of_goesOn {a : Step} (h : a.goesOn = true) (p k length : Nat) :
    a.leads p k length = [(p + 1, a.height k)] := by
  cases a <;> first | rfl | cases h

end Step

/-- Steps that are run one after another, from so many values to the end. -/
inductive Straight (t : Tree) (i : NodeId) : Nat → List Step → Prop where
  | finish {k : Nat} (h : 0 < k) : Straight t i k [.finish]
  | cons {k : Nat} {a : Step} {rest : List Step} (go : a.goesOn = true) (ready : a.Ready t i k)
    (others : Straight t i (a.height k) rest) : Straight t i k (a :: rest)

namespace Straight

variable {t : Tree} {i : NodeId} {k : Nat} {steps rest : List Step}

/-- The height at the place `p`. -/
def heightAt (k : Nat) (steps : List Step) (p : Nat) : Nat :=
  (steps.take p).foldl (fun k a => a.height k) k

theorem get (h : Straight t i k steps) {p : Nat} {a : Step} (ha : steps[p]? = some a) :
    a.Ready t i (heightAt k steps p) ∧ (a.goesOn = true ∧ p + 1 < steps.length ∨ a = .finish) := by
  induction h generalizing p with
  | finish h =>
    cases p with
    | zero =>
      cases ha
      exact ⟨h, .inr rfl⟩
    | succ p => simp at ha
  | @cons k b rest go ready others ih =>
    cases p with
    | zero =>
      cases ha
      have : 0 < rest.length := by cases others <;> simp
      exact ⟨ready, .inl ⟨go, by simpa using this⟩⟩
    | succ p =>
      obtain ⟨hr, hg⟩ := ih (p := p) (by simpa using ha)
      exact ⟨hr, hg.imp_left fun ⟨hg, hp⟩ => ⟨hg, by simpa using hp⟩⟩

theorem heightAt_succ {p : Nat} {a : Step} (ha : steps[p]? = some a) :
    heightAt k steps (p + 1) = a.height (heightAt k steps p) := by
  simp [heightAt, List.take_add_one, ha, List.foldl_append]

theorem heights (h : Straight t i 0 steps) : Heights t i steps (heightAt 0 steps) := by
  refine ⟨by cases h <;> simp, rfl, fun p a ha => (h.get ha).1, fun p a ha q k hq => ?_⟩
  obtain ⟨-, ⟨hg, hp⟩ | rfl⟩ := h.get ha
  · rw [Step.leads_of_goesOn hg] at hq
    cases List.mem_singleton.1 hq
    exact ⟨hp, heightAt_succ ha⟩
  · cases hq

/-- Evaluating children in turn. -/
theorem evaluates {js : List Nat} (hj : ∀ j ∈ js, j < (t.children i).length)
    (h : Straight t i (k + js.length) rest) : Straight t i k (js.map .evaluate ++ rest) := by
  induction js generalizing k with
  | nil => exact h
  | cons j js ih =>
    refine .cons rfl (hj j List.mem_cons_self) (ih (fun j' h' => hj j' (List.mem_cons_of_mem _ h')) ?_)
    have : k + (j :: js).length = k + 1 + js.length := by simp; omega
    exact this ▸ h

/-- One operation and the end. -/
theorem apply {o : Operation} (hk : o.takes ≤ k)
    (hb : ∀ function body parameters, o = .makeFunction function body parameters → body < t.size) :
    Straight t i k [.apply o, .finish] :=
  .cons rfl ⟨hk, hb⟩ (.finish (Nat.succ_pos _))

theorem collect {count : Nat} {o : Operation} (hc : (t.children i).length = count)
    (ho : o.takes ≤ count)
    (hb : ∀ function body parameters, o = .makeFunction function body parameters → body < t.size) :
    Straight t i 0 (Tree.collectSteps count o) :=
  evaluates (by simp [hc]) (apply (by simpa using ho) hb)

theorem fail (kind : ExceptionKind) (message : String) :
    Straight t i 0 (Tree.failSteps kind message) := apply (Nat.zero_le _) (by simp)

/-- Each operator of a chain finds the value so far and the operand on its right. -/
theorem chain {operators : List BinaryOperator} (j : Nat)
    (hc : j + operators.length < (t.children i).length) :
    Straight t i 1 ((operators.zipIdx j).flatMap
      (fun (o, k) => [.evaluate (k + 1), .apply (.binary o)]) ++ [.finish]) := by
  induction operators generalizing j with
  | nil => exact .finish Nat.one_pos
  | cons o operators ih =>
    simp only [List.length_cons] at hc
    have hj : j + 1 < (t.children i).length := by omega
    refine .cons rfl hj (.cons rfl ⟨Nat.le_refl 2, by simp⟩ (ih (j + 1) ?_))
    omega

theorem bound {c : NodeId} (hk : 0 < k) (h : Straight t i k rest) :
    Straight t i k (Machine.boundSteps t c ++ rest) := by
  unfold Machine.boundSteps
  split
  · exact .cons rfl hk h
  · exact h

/-- Each statement of a block leaves its value, which only the last one keeps. -/
theorem statements {cs : List NodeId} (j : Nat) (hne : cs ≠ [])
    (hc : j + cs.length ≤ (t.children i).length) : Straight t i 0 (t.statementSteps j cs) := by
  induction cs generalizing j with
  | nil => exact absurd rfl hne
  | cons c rest ih =>
    rw [Machine.statementSteps_cons]
    simp only [List.length_cons] at hc
    have hj : j < (t.children i).length := by omega
    refine .cons rfl hj (bound Nat.one_pos ?_)
    cases rest with
    | nil => exact .finish Nat.one_pos
    | cons d rest =>
      exact .cons rfl Nat.one_pos (ih (j + 1) (by simp) (by omega))

end Straight

/-! ### Steps with jumps -/

/-- Heights of finitely many places, one for each step. -/
theorem heights_of_list {t : Tree} {i : NodeId} {steps : List Step} (hs : List Nat)
    (nonempty : 0 < steps.length) (start : hs.getD 0 0 = 0)
    (fit : ∀ p < steps.length, ∀ a : Step, steps[p]? = some a → a.Ready t i (hs.getD p 0) ∧
      ∀ l ∈ a.leads p (hs.getD p 0) steps.length, l.1 < steps.length ∧ hs.getD l.1 0 = l.2) :
    Heights t i steps (hs.getD · 0) :=
  ⟨nonempty, start, fun p a ha => (fit p (List.getElem?_eq_some_iff.1 ha).1 a ha).1,
    fun p a ha q k hq => (fit p (List.getElem?_eq_some_iff.1 ha).1 a ha).2 (q, k) hq⟩

namespace Tree

variable {t : Tree} {i : NodeId} {n : Node}

theorem heights_conditional (hw : t.Working i n) (hk : n.kind = .conditional) :
    Heights t i (t.steps i) ([0, 1, 0, 1, 0, 1].getD · 0) := by
  have hc : (t.children i).length = 3 := by
    have := hw.fits
    rw [hk] at this
    simpa [hw.children, fits] using this
  rw [hw.steps, hk]
  refine heights_of_list _ (by simp [kindSteps]) rfl ?_
  intro p hp a ha
  simp only [kindSteps, List.length_cons, List.length_nil] at hp ha ⊢
  interval_cases p <;> cases ha <;> simp [Step.Ready, Step.leads, hc]

theorem heights_reaction (hw : t.Working i n) (hk : n.kind = .reaction) :
    ∃ h, Heights t i (t.steps i) h := by
  have hc : (t.children i).length = n.children.length := by rw [hw.children]
  have hf := hw.fits
  rw [hw.steps, hk]
  rw [hk] at hf
  simp only [fits, Bool.or_eq_true, beq_iff_eq] at hf
  rcases hf with h | h
  · refine ⟨_, heights_of_list [0, 0, 1, 0, 1] (by simp [kindSteps, h]) rfl ?_⟩
    intro p hp a ha
    simp only [kindSteps, h, if_true, List.length_cons, List.length_nil] at hp ha ⊢
    interval_cases p <;> cases ha <;> simp [Step.Ready, Step.leads, hc, h]
  · refine ⟨_, heights_of_list [0, 0, 1, 0, 1, 0, 1, 0, 1] (by simp [kindSteps, h]) rfl ?_⟩
    intro p hp a ha
    have h2 : n.children.length ≠ 2 := by omega
    simp only [kindSteps, h2, if_false, List.length_cons, List.length_nil] at hp ha ⊢
    interval_cases p <;> cases ha <;> simp [Step.Ready, Step.leads, Operation.takes, hc, h]

/-- The steps of a node have no jumps, or it is one of the two kinds that choose between their parts. -/
theorem Ordered.straight (o : t.Ordered) (hi : i < t.size) : Straight t i 0 (t.steps i) ∨
    ∃ n, t.Working i n ∧ (n.kind = .conditional ∨ n.kind = .reaction) := by
  rcases fault_or_working (Tree.lt_size_iff.1 hi) with ⟨kind, message, hf⟩ | ⟨n, hw⟩
  · exact .inl (steps_of_fault hf ▸ Straight.fail kind message)
  have hc := hw.children
  have hf := hw.fits
  have first (hl : n.children.length = 1) : 0 < (t.children i).length := by rw [hc, hl]; exact Nat.one_pos
  cases hk : n.kind <;> rw [hk] at hf <;> simp only [fits, beq_iff_eq, decide_eq_true_eq] at hf
  case conditional => exact .inr ⟨n, hw, .inl hk⟩
  case reaction => exact .inr ⟨n, hw, .inr hk⟩
  all_goals left; rw [hw.steps, hk]
  case program => exact .cons rfl (first hf) (.finish Nat.one_pos)
  case bind => exact .cons rfl (first hf) (.finish Nat.one_pos)
  case block =>
    refine .cons rfl trivial (Straight.statements 0 ?_ (by simp [hc]))
    rintro h
    simp [h] at hf
  case number => exact .cons rfl (Value.every_number _) (.finish Nat.one_pos)
  case text => exact .cons rfl (Value.every_text _) (.finish Nat.one_pos)
  case boolean => exact .cons rfl (Value.every_boolean _) (.finish Nat.one_pos)
  case list => exact Straight.collect (by rw [hc]) (Nat.le_refl _) (by simp)
  case struct names => exact Straight.collect (by rw [hc]) (Nat.le_of_eq hf.symm) (by simp)
  case property =>
    exact .cons rfl (first hf) (Straight.apply (Nat.le_refl 1) (by simp))
  case unary =>
    exact .cons rfl (first hf) (Straight.apply (Nat.le_refl 1) (by simp))
  case reference => exact Straight.apply (Nat.zero_le _) (by simp)
  case binary operators =>
    simp only [Bool.and_eq_true, beq_iff_eq] at hf
    exact .cons rfl (show 0 < (t.children i).length by rw [hc]; omega)
      (Straight.chain 0 (by rw [hc]; omega))
  case function =>
    obtain ⟨c, hcs⟩ := List.length_eq_one_iff.1 hf
    have hmem : c ∈ t.children i := by rw [hc, hcs]; exact List.mem_singleton_self c
    refine Straight.apply (Nat.zero_le _) ?_
    rintro _ body _ ⟨⟩
    rw [hcs]
    exact Nat.lt_trans (o.child_lt hmem) hi
  case call => exact Straight.collect (by rw [hc]) (by simp [Operation.takes]; omega) (by simp)
  case stream => exact .cons rfl trivial (.finish Nat.one_pos)
  case changed => exact .cons rfl trivial (.finish Nat.one_pos)
  case previous =>
    simp only [kindSteps]
    split
    · exact Straight.apply (Nat.zero_le _) (by simp)
    · exact Straight.fail _ _
  case placeholder => exact Straight.fail _ _

/-- The steps of every node have heights. -/
theorem Ordered.heights (o : t.Ordered) (hi : i < t.size) : ∃ h, Heights t i (t.steps i) h := by
  rcases o.straight hi with h | ⟨n, hw, hk | hk⟩
  · exact ⟨_, h.heights⟩
  · exact ⟨_, heights_conditional hw hk⟩
  · exact heights_reaction hw hk

end Tree
end StreamLang
