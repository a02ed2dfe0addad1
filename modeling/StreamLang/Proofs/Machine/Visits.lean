import StreamLang.Proofs.Machine.Budget
import StreamLang.Proofs.Machine.Tally
/-!
Passes and parts of passes in which nothing loops. A node outside of all functions in reach is run once and
written once, whatever else the pass does. In a tree without calls that goes for all nodes, so that a pass
makes no more steps than the tree has.
-/
namespace StreamLang

namespace Tree

variable {t : Tree} {i : NodeId} {count : Nat}

theorem call_not_mem_statementSteps (t : Tree) (k : Nat) (is : List NodeId) :
    .apply (.call count) ∉ t.statementSteps k is := by
  intro h
  rcases mem_statementSteps h with ⟨j, hj⟩ | ⟨name, hn⟩ | hd | hf
  · cases hj
  · cases hn
  · cases hd
  · cases hf

/-- Only the steps of a call call. -/
theorem kind_of_call_mem (h : .apply (.call count) ∈ t.steps i) : t.kind? i = some .call := by
  unfold steps at h
  cases hn : t.node? i with
  | none => simp [hn] at h
  | some n =>
    have hkind : t.kind? i = some n.kind := by simp [kind?, hn]
    simp only [hn] at h
    split at h
    · simp [failSteps] at h
    split at h
    · cases hk : n.kind with
      | call => rw [hkind, hk]
      | block => simp [kindSteps, hk, call_not_mem_statementSteps] at h
      | binary operators => simp [kindSteps, hk, chainSteps] at h
      | reaction =>
        simp only [kindSteps, hk] at h
        split at h <;> simp at h
      | previous =>
        simp only [kindSteps, hk] at h
        split at h <;> simp [failSteps] at h
      | _ => simp [kindSteps, hk, collectSteps, failSteps] at h
    · simp [failSteps] at h

end Tree

/-- No function lies around the node, and none on offer, other than those of the program, has its body there
or around it. -/
structure Setting.Uncalled (s : Setting) (scopes : Scopes) (i : NodeId) : Prop where
  outside : ∀ a, s.program.tree.Within a i → a ≠ i → s.program.tree.isFunction a = false
  offers : ∀ c, s.Offers scopes c → c.Of s.program.tree ∨ ¬ s.program.tree.Within c.body i

namespace Setting.Uncalled

variable {s : Setting} {scopes : Scopes} {i : NodeId}

/-- For a function of the program is a node around its body. -/
theorem not_within_body (h : s.Uncalled scopes i) (o : s.program.tree.Ordered) {c : Closure}
    (hc : c.Of s.program.tree) : ¬ s.program.tree.Within c.body i := by
  intro hin
  have hbody : c.body ∈ s.program.tree.children c.function := hc.body ▸ List.mem_singleton_self c.body
  have hne : c.function ≠ i := fun h => o.not_within_parent hbody (h ▸ hin)
  have hout := h.outside c.function (Tree.Within.trans (.child hbody) hin) hne
  rw [Tree.isFunction, hc.kind] at hout
  cases hout

theorem contains (h : s.Uncalled scopes i) (o : s.program.tree.Ordered) :
    scopes.Confines (s.Opens scopes)
        (fun c => ¬ s.program.tree.Within c.body i ∧ s.Opens scopes c.scope) ∧
      s.Contains (s.Opens scopes)
        fun c => ¬ s.program.tree.Within c.body i ∧ s.Opens scopes c.scope := by
  refine Setting.contains_of_offers (B := fun c => ¬ s.program.tree.Within c.body i) (fun c hc => ?_) ?_
  · rcases h.offers c hc with own | hn
    · exact h.not_within_body o own
    · exact hn
  · intro function body parameters scope hk hb
    exact h.not_within_body o (c := ⟨function, body, parameters, scope⟩) ⟨hk, hb⟩

end Setting.Uncalled

namespace Machine

variable {s : Setting} {scopes : Scopes} {m : Machine} {i : NodeId}

/-! ### A node that is not called -/

/-- What holds of the machine of a pass in which a node is not called. -/
structure Visits (s : Setting) (scopes : Scopes) (i : NodeId) (m : Machine) : Prop where
  contained : m.Contained s (s.Opens scopes)
    fun c => ¬ s.program.tree.Within c.body i ∧ s.Opens scopes c.scope
  counted : m.tally.Counted s.program.tree fun b => ¬ s.program.tree.Within b i

namespace Visits

theorem start (o : s.program.tree.Ordered) (h : s.Uncalled scopes i) :
    (start scopes).Visits s scopes i :=
  ⟨.start s (h.contains o).1, counted_start s scopes _⟩

variable (accepted : s.program.tree.Accepted) (hroot : s.root = s.program.tree.root)
  (uncalled : s.Uncalled scopes i)
include accepted hroot

theorem ticks_tally (h : m.Visits s scopes i) (abort : Bool) :
    (∃ fault, (m.tick s abort).status = .broken fault ∧
        (m.tick s abort).tally = { m.tally with steps := m.tally.steps + 1 }) ∨
      m.tally.Ticks s.program.tree (fun b => ¬ s.program.tree.Within b i) (m.tick s abort).tally := by
  refine Machine.ticks_tally accepted.ordered hroot h.contained.listening ?_ abort
  intro f hf count _ v hv
  exact (h.contained.confined.values f hf v hv).mono fun _ hc => hc.1

include uncalled in
theorem tick (h : m.Visits s scopes i) (abort : Bool) : (m.tick s abort).Visits s scopes i := by
  refine ⟨h.contained.tick (uncalled.contains accepted.ordered).2 abort, ?_⟩
  rcases h.ticks_tally accepted hroot abort with ⟨fault, -, ht⟩ | ht
  · rw [ht]
    exact h.counted.of_steps _
  · exact h.counted.ticks accepted.ordered accepted.parent_root ht

include uncalled in
theorem ticks (h : m.Visits s scopes i) (aborts : List Bool) :
    (m.ticks s aborts).Visits s scopes i :=
  ticks_induction (fun _ abort h => h.tick accepted hroot uncalled abort) h aborts

omit hroot in
theorem count_le_one (h : m.Visits s scopes i) : m.tally.count i ≤ 1 :=
  h.counted.count_le_one accepted.ordered fun _ ha hn => hn ha

include uncalled in
theorem write_kept (h : m.Visits s scopes i) {w : Write} (hw : m.tally.write? i = some w)
    (aborts : List Bool) : (m.ticks s aborts).tally.write? i = some w := by
  refine (ticks_induction (I := fun m => m.Visits s scopes i ∧ m.tally.write? i = some w)
    (fun m abort ⟨h, hw⟩ => ⟨h.tick accepted hroot uncalled abort, ?_⟩) ⟨h, hw⟩ aborts).2
  rcases h.ticks_tally accepted hroot abort with ⟨fault, -, ht⟩ | ht
  · rw [ht]
    exact hw
  · exact h.counted.write_kept ht (h.count_le_one accepted) hw

end Visits

/-! ### A tree without calls -/

/-- What holds of the machine of a pass over a tree without calls. -/
structure Bounded (s : Setting) (m : Machine) : Prop where
  listening : m.Listening s
  counted : m.tally.Counted s.program.tree fun _ => False
  spent : (∀ fault, m.status ≠ .broken fault) → m.tally.Spent s.program.tree

namespace Bounded

variable (accepted : s.program.tree.Accepted) (hroot : s.root = s.program.tree.root)
  (free : s.program.tree.CallFree)

theorem start (s : Setting) (scopes : Scopes) : (start scopes).Bounded s :=
  ⟨.start s scopes, counted_start s scopes _, fun _ => spent_start s scopes⟩

include accepted hroot free

theorem tick (h : m.Bounded s) (abort : Bool) : (m.tick s abort).Bounded s := by
  have calls : m.CallsOnly fun _ => False := by
    intro f hf count ha
    rw [h.listening.steps f hf] at ha
    exact absurd (Tree.kind_of_call_mem (List.mem_of_getElem? ha)) (free f.node)
  have listening := (Listening.invariant s).tick h.listening abort
  rcases Machine.ticks_tally accepted.ordered hroot h.listening calls abort with ⟨fault, hb, ht⟩ | ht
  · exact ⟨listening, ht ▸ h.counted.of_steps _, fun hn => absurd hb (hn fault)⟩
  · refine ⟨listening, h.counted.ticks accepted.ordered accepted.parent_root ht, fun hn => ?_⟩
    refine (h.spent fun fault hf => ?_).ticks ht
    have stopped : m.isRunning = false := by simp [isRunning, hf]
    rw [tick_of_ended stopped] at hn
    exact hn fault hf

theorem ticks (h : m.Bounded s) (aborts : List Bool) : (m.ticks s aborts).Bounded s :=
  ticks_induction (fun _ abort h => h.tick accepted hroot free abort) h aborts

omit hroot free in
theorem count_le_one (h : m.Bounded s) (i : NodeId) : m.tally.count i ≤ 1 :=
  h.counted.count_le_one accepted.ordered fun _ _ hf => hf

omit hroot free in
theorem steps_le_work (h : m.Bounded s) (hn : ∀ fault, m.status ≠ .broken fault) :
    m.record.steps ≤ s.program.tree.work :=
  calc m.tally.steps ≤ m.tally.steps + m.tally.ahead s.program.tree := Nat.le_add_right ..
    _ ≤ m.tally.load s.program.tree := h.spent hn
    _ ≤ s.program.tree.work := Tally.load_le_work (h.count_le_one accepted)

end Bounded

/-- A machine that has ended stays as it is. -/
theorem ticks_of_over (h : m.isRunning = false) (aborts : List Bool) : m.ticks s aborts = m := by
  refine ticks_induction (I := (· = m)) (fun _ abort hm => ?_) rfl aborts
  rw [hm]
  exact tick_of_ended h

/-- Only the first request to abort counts. -/
theorem ticks_cases (s : Setting) (m : Machine) (aborts : List Bool) : ∃ n,
    m.ticks s aborts = m.run s false n ∨ m.ticks s aborts = (m.run s false n).cutOff .aborted := by
  induction aborts generalizing m with
  | nil => exact ⟨0, .inl rfl⟩
  | cons abort aborts ih =>
    cases abort with
    | false =>
      obtain ⟨n, h⟩ := ih (m.tick s false)
      rw [← run_succ] at h
      exact ⟨n + 1, h⟩
    | true =>
      refine ⟨0, ?_⟩
      cases hr : m.isRunning with
      | false => exact .inl (ticks_of_over hr _)
      | true =>
        have htick : m.tick s true = m.cutOff .aborted := by simp [tick, hr]
        right
        rw [ticks, List.foldl_cons, htick]
        exact ticks_of_over rfl aborts

section CallFree

variable (accepted : s.program.tree.Accepted) (hroot : s.root = s.program.tree.root)
  (free : s.program.tree.CallFree)
include accepted hroot free

/-- Without a budget, the pass gets on or has ended with its value. -/
theorem exists_value (scopes : Scopes) : ∃ v, ∀ k, (unlimited s scopes k).isRunning = true ∨
    (unlimited s scopes k).status = .ended (.ofValue v) := by
  have hlt : s.root < s.program.tree.size := hroot ▸ accepted.root_lt
  obtain ⟨v, version, σ', he⟩ := exists_enters (P := fun _ _ => True) rfl accepted.ordered free
    (fun _ _ => trivial) hlt (scopes.addChild s.globals).1 (State.initial s scopes)
  obtain ⟨needed, h⟩ := finish_of_enters he
  have hend := h needed (Nat.le_refl needed)
  rw [finish_eq] at hend
  have stopped : (unlimited s scopes needed).isRunning = false := by
    cases hr : (unlimited s scopes needed).isRunning with
    | false => rfl
    | true =>
      rw [hr, if_pos rfl] at hend
      unfold Terminal.ofValue at hend
      split at hend <;> cases hend
  rw [stopped] at hend
  refine ⟨v, fun k => ?_⟩
  cases hr : (unlimited s scopes k).isRunning with
  | true => exact .inl rfl
  | false =>
    right
    rcases Nat.le_total k needed with hk | hk
    · rw [← unlimited_of_over hr hk]
      exact hend
    · rw [unlimited_of_over stopped hk]
      exact hend

theorem steps_unlimited (scopes : Scopes) (k : Nat) :
    (unlimited s scopes k).record.steps ≤ s.program.tree.work := by
  have h := Bounded.ticks (s := { s with budget := k }) accepted hroot free (.start _ scopes)
    (.replicate (k + 1) false)
  rw [← run_eq_ticks, run_eq_unlimited s scopes (Nat.le_refl k)] at h
  obtain ⟨v, hv⟩ := exists_value accepted hroot free scopes
  refine Bounded.steps_le_work (s := { s with budget := k }) accepted h fun fault hf => ?_
  rcases hv k with hr | he
  · simp [isRunning, hf] at hr
  · rw [hf] at he
    cases he

/-- There are no more steps to be made than the tree has. -/
theorem over_work (scopes : Scopes) :
    (unlimited s scopes s.program.tree.work).isRunning = false := by
  by_contra h
  have hr : (unlimited s scopes s.program.tree.work).isRunning = true := Bool.not_eq_false _ ▸ h
  -- A pass that is still running has made all of these steps, and makes one more.
  have took : ((unlimited s scopes s.program.tree.work).advance s).Took (s.program.tree.work + 1) :=
    (took_of_running hr).advance
  have bound := steps_unlimited accepted hroot free scopes (s.program.tree.work + 1)
  rw [unlimited_succ_of_running hr, took.steps] at bound
  exact absurd bound (Nat.not_succ_le_self _)

theorem steps_ticks (scopes : Scopes) (aborts : List Bool) :
    ((start scopes).ticks s aborts).record.steps ≤ s.program.tree.work := by
  have run (n : Nat) : ((start scopes).run s false n).record.steps ≤ s.program.tree.work := by
    rcases run_cases s scopes s.budget n with h | ⟨k, -, h⟩ | ⟨-, h⟩ <;> rw [h]
    · exact Nat.zero_le _
    · exact steps_unlimited accepted hroot free scopes k
    · exact steps_unlimited accepted hroot free scopes s.budget
  obtain ⟨n, h | h⟩ := ticks_cases s (start scopes) aborts <;> rw [h]
  · exact run n
  · exact run n

/-- So a pass is over after so many ticks, whatever its budget. -/
theorem over_after_work (scopes : Scopes) (budget : Nat) :
    ((start scopes).run { s with budget } false (s.program.tree.work + 1)).isRunning = false := by
  rcases Nat.lt_or_ge budget s.program.tree.work with hb | hb
  · obtain ⟨l, hl⟩ := Nat.exists_eq_add_of_le hb
    have hn : s.program.tree.work + 1 = budget + 2 + l := by omega
    have stopped := finish_not_running s scopes budget
    rw [hn, run_add]
    exact (congrArg isRunning (run_of_ended stopped l)).trans stopped
  · rw [run_eq_unlimited s scopes hb]
    exact over_work accepted hroot free scopes

/-- And with so many steps in its budget it ends with its value, or is aborted. -/
theorem ended_of_work (scopes : Scopes) : ∃ v, ∀ budget, s.program.tree.work ≤ budget →
    ((start scopes).finish { s with budget } false).status = .ended (.ofValue v) ∧
    ∀ aborts, ((start scopes).ticks { s with budget } aborts).status ≠ .ended .budgetExceeded := by
  obtain ⟨v, hv⟩ := exists_value accepted hroot free scopes
  have stopped := over_work accepted hroot free scopes
  have unlimited_ne (k : Nat) : (unlimited s scopes k).status ≠ .ended .budgetExceeded := by
    intro h
    rcases hv k with hr | he
    · simp [isRunning, h] at hr
    · have hvalue := value?_ofValue v
      rw [← Status.ended.inj (h.symm.trans he)] at hvalue
      cases hvalue
  refine ⟨v, fun budget hb => ⟨?_, fun aborts => ?_⟩⟩
  · rw [finish_eq, unlimited_of_over stopped hb, stopped]
    rcases hv s.program.tree.work with hr | he
    · rw [stopped] at hr
      cases hr
    · exact he
  · obtain ⟨n, h | h⟩ := ticks_cases { s with budget } (start scopes) aborts <;> rw [h]
    · rcases run_cases s scopes budget n with h | ⟨k, -, h⟩ | ⟨running, -⟩
      · rw [h]
        exact fun unstarted => by cases unstarted
      · rw [h]
        exact unlimited_ne k
      · rw [unlimited_of_over stopped hb, stopped] at running
        cases running
    · exact fun aborted => by cases aborted

end CallFree
end Machine
end StreamLang
