import StreamLang.Proofs.Language
import StreamLang.Proofs.Machine.Moves
/-!
The budget only cuts a pass off. A pass with a budget is the pass without one (`unlimited`), stopped
after so many steps if it is still running then (`finish_eq`). So there are three cases: the pass needs a
certain number of steps for its value and is the same for every budget that has them, or every budget is
spent, or after a certain number of steps the pass calls a function whose body is not in the tree, and
crashes whenever the budget takes it so far.
-/
namespace StreamLang

namespace Machine

variable {s : Setting} {scopes : Scopes} {m m' : Machine} {f : Frame} {rest : List Frame} {a : Step}

/-! ### What a step does to the count of steps and to the status -/

/-- The machine is running, has ended with a value or is broken: nothing has cut it off. -/
def Uncut (m : Machine) : Prop :=
  m.status = .running ∨ (∃ v, m.status = .ended (.ofValue v)) ∨ ∃ fault, m.status = .broken fault

/-- A started machine that nothing has cut off, after so many steps. -/
structure Took (k : Nat) (m : Machine) : Prop where
  started : m.started = true
  steps : m.record.steps = k
  uncut : m.Uncut

namespace Took

variable {k : Nat} (h : m.Took k)
include h

theorem of_eq (started : m'.started = m.started) (steps : m'.record.steps = m.record.steps)
    (status : m'.status = m.status) : m'.Took k :=
  ⟨started.trans h.started, steps.trans h.steps, by unfold Uncut; rw [status]; exact h.uncut⟩

theorem fail (fault : Fault) : (m.fail fault).Took k := ⟨h.started, h.steps, .inr (.inr ⟨fault, rfl⟩)⟩

theorem handDown (version : Option Nat) (v : Value) : (m.handDown version v).Took k := by
  unfold Machine.handDown
  split
  · exact ⟨h.started, h.steps, .inr (.inl ⟨v, rfl⟩)⟩
  · exact h.of_eq rfl rfl rfl

theorem call (i : NodeId) (x : ScopeId) : (m.call s i x).Took k :=
  call_induction h.fail fun _ => h.of_eq rfl rfl rfl

theorem enter (i : NodeId) (x : ScopeId) : (m.enter s i x).Took k := by
  unfold Machine.enter
  split
  · have reused : (m.setRecord (s.noteReuse m.record i)).Took k :=
      h.of_eq rfl (s.steps_noteReuse m.record i) rfl
    exact reused.handDown none _
  · exact h.call i x

theorem moved (hm : Moved s m f rest a m') : m'.Took k := by
  cases hm with
  | failed fault => exact h.fail fault
  | resumed | defined | opened => exact h.of_eq rfl rfl rfl
  | @called g count c arguments =>
    have opened : ((((m.put g rest).openScope c.scope).2.define ((m.put g rest).openScope c.scope).1
        (c.parameters.zip arguments))).Took k := h.of_eq rfl rfl rfl
    exact opened.call _ _
  | read => exact h.of_eq rfl (steps_fetch s m.record f.node _ _) rfl
  | @entered g _ i =>
    have waiting : (m.put g rest).Took k := h.of_eq rfl rfl rfl
    exact waiting.enter i f.scope
  | @finished g version v =>
    have left : ({ m with frames := rest, record := s.noteFinish m.record g v } : Machine).Took k :=
      h.of_eq rfl (s.steps_noteFinish m.record g v) rfl
    exact left.handDown version v

/-- A step is counted once. -/
theorem advance : (m.advance s).Took (k + 1) := by
  have counted : (m.setRecord m.record.countStep).Took (k + 1) :=
    ⟨h.started, congrArg (· + 1) h.steps, h.uncut⟩
  unfold Machine.advance step
  split
  · exact counted.fail _
  · split
    · exact counted.fail _
    · exact counted.moved (moved_execute ⟨rfl, rfl, rfl⟩ _)

end Took

/-! ### The pass without a budget -/

/-- The pass after so many steps, if it has not ended before. -/
def unlimited (s : Setting) (scopes : Scopes) : Nat → Machine
  | 0 => (start scopes).enterRoot s
  | k + 1 =>
    let m := unlimited s scopes k
    if m.isRunning then m.advance s else m

theorem unlimited_succ_of_running {k : Nat} (h : (unlimited s scopes k).isRunning = true) :
    unlimited s scopes (k + 1) = (unlimited s scopes k).advance s := if_pos h

theorem unlimited_succ_of_over {k : Nat} (h : (unlimited s scopes k).isRunning = false) :
    unlimited s scopes (k + 1) = unlimited s scopes k := if_neg (by rw [h]; decide)

theorem unlimited_of_over {k l : Nat} (h : (unlimited s scopes k).isRunning = false) (hl : k ≤ l) :
    unlimited s scopes l = unlimited s scopes k := by
  induction l, hl using Nat.le_induction with
  | base => rfl
  | succ l _ ih =>
    rw [← ih] at h ⊢
    exact unlimited_succ_of_over h

/-- As long as the pass is running, each step is counted. -/
theorem took_unlimited (s : Setting) (scopes : Scopes) (k : Nat)
    (h : ∀ j < k, (unlimited s scopes j).isRunning = true) : (unlimited s scopes k).Took k := by
  induction k with
  | zero =>
    have entered : ({ (start scopes).openScope s.globals |>.2 with started := true } : Machine).Took 0 :=
      ⟨rfl, rfl, .inl rfl⟩
    exact entered.enter s.root _
  | succ k ih =>
    rw [unlimited_succ_of_running (h k (Nat.lt_succ_self k))]
    exact (ih fun j hj => h j (Nat.lt_succ_of_lt hj)).advance

theorem unlimited_running_of_le {j k : Nat} (h : (unlimited s scopes k).isRunning = true)
    (hj : j ≤ k) : (unlimited s scopes j).isRunning = true := by
  by_contra hover
  have hover := Bool.eq_false_iff.2 hover
  rw [unlimited_of_over hover hj, hover] at h
  cases h

theorem took_of_running {k : Nat} (h : (unlimited s scopes k).isRunning = true) :
    (unlimited s scopes k).Took k :=
  took_unlimited s scopes k fun _ hj => unlimited_running_of_le h (Nat.le_of_lt hj)

/-- Any pass has made some number of steps by then, and all of them as long as it is running. -/
theorem exists_took (s : Setting) (scopes : Scopes) (k : Nat) :
    ∃ j ≤ k, (unlimited s scopes k).Took j := by
  induction k with
  | zero => exact ⟨0, Nat.le_refl 0, took_unlimited s scopes 0 (by simp)⟩
  | succ k ih =>
    cases h : (unlimited s scopes k).isRunning with
    | true =>
      rw [unlimited_succ_of_running h]
      exact ⟨k + 1, Nat.le_refl _, (took_of_running h).advance⟩
    | false =>
      obtain ⟨j, hj, took⟩ := ih
      rw [unlimited_succ_of_over h]
      exact ⟨j, Nat.le_succ_of_le hj, took⟩

/-! ### The pass with a budget -/

/-- A machine that has ended stays as it is, whatever it is ticked with. -/
def Over (m : Machine) : Prop := ∀ (s : Setting) (abort : Bool), m.tick s abort = m

theorem over_of_not_running (h : m.isRunning = false) : m.Over := fun _ _ => tick_of_ended h

/-- Up to its budget a pass does what it does without one. The first tick only enters the root. -/
theorem run_eq_unlimited (s : Setting) (scopes : Scopes) {k budget : Nat} (hk : k ≤ budget) :
    (start scopes).run { s with budget } false (k + 1) = unlimited s scopes k := by
  induction k with
  | zero => rfl
  | succ k ih =>
    rw [run_add, ih (Nat.le_of_lt hk), run_succ, run_zero]
    cases h : (unlimited s scopes k).isRunning with
    | false => rw [tick_of_ended h, unlimited_succ_of_over h]
    | true =>
      have took := took_of_running h
      have left : ¬ budget ≤ (unlimited s scopes k).record.steps := by
        rw [took.steps]
        exact Nat.not_le.2 hk
      rw [unlimited_succ_of_running h, tick, h, took.started]
      exact if_neg left

/-- What a budget comes to. -/
theorem finish_eq (s : Setting) (scopes : Scopes) (budget : Nat) :
    (start scopes).finish { s with budget } false =
      if (unlimited s scopes budget).isRunning then (unlimited s scopes budget).cutOff .budgetExceeded
      else unlimited s scopes budget := by
  rw [finish, run_add _ _ _ (budget + 1) 1, run_eq_unlimited s scopes (Nat.le_refl budget), run_succ,
    run_zero]
  split
  · rename_i h
    have took := took_of_running h
    rw [tick, h, took.started]
    exact if_pos (Nat.le_of_eq took.steps.symm)
  · rename_i h
    exact tick_of_ended (Bool.eq_false_iff.2 h)

theorem finish_not_running (s : Setting) (scopes : Scopes) (budget : Nat) :
    ((start scopes).finish { s with budget } false).isRunning = false := by
  rw [finish_eq]
  split
  · rfl
  · exact Bool.eq_false_iff.2 ‹_›

/-- Whenever a machine is found ended, it is as it is at the end. -/
theorem run_eq_finish {s : Setting} {scopes : Scopes} {n : Nat}
    (h : ((start scopes).run s false n).isRunning = false) :
    (start scopes).run s false n = (start scopes).finish s false := by
  have hfinish : ((start scopes).run s false (s.budget + 2)).isRunning = false :=
    finish_not_running s scopes s.budget
  rcases Nat.le_total n (s.budget + 2) with hle | hle
  · obtain ⟨l, hl⟩ := Nat.exists_eq_add_of_le hle
    rw [finish, hl, run_add, run_of_ended h]
  · obtain ⟨l, rfl⟩ := Nat.exists_eq_add_of_le hle
    rw [finish, run_add, run_of_ended hfinish]

/-- Whenever one looks, a pass has not begun, or it is the pass without a budget, or that pass was running
when the budget was spent and has been cut off. -/
theorem run_cases (s : Setting) (scopes : Scopes) (budget n : Nat) :
    (start scopes).run { s with budget } false n = start scopes ∨
      (∃ k ≤ budget, (start scopes).run { s with budget } false n = unlimited s scopes k) ∨
      (unlimited s scopes budget).isRunning = true ∧
        (start scopes).run { s with budget } false n =
          (unlimited s scopes budget).cutOff .budgetExceeded := by
  rcases Nat.lt_or_ge n (budget + 2) with hn | hn
  · cases n with
    | zero => exact .inl rfl
    | succ k =>
      have hk : k ≤ budget := by omega
      exact .inr (.inl ⟨k, hk, run_eq_unlimited s scopes hk⟩)
  · obtain ⟨l, rfl⟩ := Nat.exists_eq_add_of_le hn
    have hfinish : (start scopes).run { s with budget } false (budget + 2 + l) =
        (start scopes).finish { s with budget } false := by
      rw [run_add]
      exact run_of_ended (finish_not_running s scopes budget) l
    right
    rw [hfinish, finish_eq]
    split
    · rename_i running
      exact .inr ⟨running, rfl⟩
    · exact .inl ⟨budget, Nat.le_refl budget, rfl⟩

/-- Whenever one looks, no more steps have been made than the budget has. -/
theorem steps_le_budget (s : Setting) (scopes : Scopes) (budget n : Nat) :
    ((start scopes).run { s with budget } false n).record.steps ≤ budget := by
  have unlimited_le {k : Nat} (hk : k ≤ budget) : (unlimited s scopes k).record.steps ≤ budget := by
    obtain ⟨j, hj, took⟩ := exists_took s scopes k
    rw [took.steps]
    exact Nat.le_trans hj hk
  rcases run_cases s scopes budget n with h | ⟨k, hk, h⟩ | ⟨-, h⟩ <;> rw [h]
  · exact Nat.zero_le budget
  · exact unlimited_le hk
  · exact unlimited_le (Nat.le_refl budget)

/-- The pass spends this budget and is cut off. -/
structure Exceeds (s : Setting) (scopes : Scopes) (budget : Nat) : Prop where
  status : ((start scopes).finish { s with budget } false).status = .ended .budgetExceeded
  steps : ((start scopes).finish { s with budget } false).record.steps = budget

/-- The pass needs so many steps for its value, whatever the budget. -/
structure Needs (s : Setting) (scopes : Scopes) (needed : Nat) (outcome : Machine) : Prop where
  steps : outcome.record.steps = needed
  status : ∃ v, outcome.status = .ended (.ofValue v)
  enough : ∀ budget, needed ≤ budget → (start scopes).finish { s with budget } false = outcome
  short : ∀ budget, budget < needed → Exceeds s scopes budget

/-- After so many steps the pass looks up a node that is not in the tree, whatever the budget. -/
structure Crashes (s : Setting) (scopes : Scopes) (needed : Nat) (i : NodeId) : Prop where
  crash : ∀ budget, needed ≤ budget →
    ((start scopes).finish { s with budget } false).status = .broken (.outside i s.program.tree.size)
  short : ∀ budget, budget < needed → Exceeds s scopes budget

theorem exceeds_of_running {budget : Nat} (h : (unlimited s scopes budget).isRunning = true) :
    Exceeds s scopes budget := by
  have heq := finish_eq s scopes budget
  rw [if_pos h] at heq
  exact ⟨by rw [heq]; rfl, by rw [heq]; exact (took_of_running h).steps⟩

/-- From when the pass without a budget is over, every budget leaves it as it is. -/
theorem finish_of_over {k budget : Nat} (h : (unlimited s scopes k).isRunning = false)
    (hk : k ≤ budget) : (start scopes).finish { s with budget } false = unlimited s scopes k := by
  have later := unlimited_of_over h hk
  rw [finish_eq, later, h]
  rfl

/-- Either the pass without a budget is never over, or it is over for the first time at some number of
steps, with a value or broken. -/
theorem running_or_first (s : Setting) (scopes : Scopes) :
    (∀ k, (unlimited s scopes k).isRunning = true) ∨
      ∃ k, (unlimited s scopes k).isRunning = false ∧
        (∀ j < k, (unlimited s scopes j).isRunning = true) ∧
        ((∃ v, (unlimited s scopes k).status = .ended (.ofValue v)) ∨
          ∃ fault, (unlimited s scopes k).status = .broken fault) := by
  by_cases h : ∃ k, (unlimited s scopes k).isRunning = false
  · have first (j : Nat) (hj : j < Nat.find h) : (unlimited s scopes j).isRunning = true :=
      Bool.not_eq_false _ ▸ Nat.find_min h hj
    have stopped := Nat.find_spec h
    refine .inr ⟨Nat.find h, stopped, first, ?_⟩
    refine (took_unlimited s scopes _ first).uncut.resolve_left fun running => ?_
    rw [isRunning, running] at stopped
    cases stopped
  · exact .inl fun k => Bool.not_eq_false _ ▸ fun hk => h ⟨k, hk⟩

theorem not_exceeds_of_needs {needed : Nat} {outcome : Machine}
    (h : Needs s scopes needed outcome) : ¬ Exceeds s scopes needed := by
  intro hx
  obtain ⟨v, hv⟩ := h.status
  have hstatus := hx.status
  rw [h.enough needed (Nat.le_refl needed), hv] at hstatus
  unfold Terminal.ofValue at hstatus
  split at hstatus <;> cases hstatus

theorem not_exceeds_of_crashes {needed : Nat} {i : NodeId} (h : Crashes s scopes needed i) :
    ¬ Exceeds s scopes needed := by
  intro hx
  have hstatus := hx.status
  rw [h.crash needed (Nat.le_refl needed)] at hstatus
  cases hstatus

/-- A number from which on no budget is spent, while all smaller ones are, is the only such number. -/
theorem eq_of_cuts {j k : Nat} (hj : ¬ Exceeds s scopes j) (hk : ¬ Exceeds s scopes k)
    (short : ∀ budget, budget < j → Exceeds s scopes budget)
    (short' : ∀ budget, budget < k → Exceeds s scopes budget) : j = k :=
  Nat.le_antisymm (Nat.le_of_not_lt fun h => hk (short k h))
    (Nat.le_of_not_lt fun h => hj (short' j h))

end Machine

/-- The functions that there are before a pass: in committed values, in what the streams show and in the
scopes. -/
inductive Setting.Has (s : Setting) (scopes : Scopes) : Closure → Prop where
  | committed {i : NodeId} {e : CacheEntry} {c : Closure} (he : s.cache.find? i = some e)
    (hc : e.value.Mentions c) : Has s scopes c
  | streamed {stream : String} {e : SnapshotEntry} {c : Closure}
    (he : s.snapshot.get? stream = some e) (hc : e.value.Mentions c) : Has s scopes c
  | bound {x : ScopeId} {scope : Scope} {b : String × Binding} {c : Closure}
    (hx : scopes.all[x]? = some scope) (hb : b ∈ scope.bindings) (hc : (b.2.read x).Mentions c) :
    Has s scopes c

/-- The pass is set on a node that is not in the tree, or there is a function with such a body. -/
structure Setting.Strays (s : Setting) (scopes : Scopes) (i : NodeId) : Prop where
  cause : i = s.root ∨ ∃ c, s.Has scopes c ∧ c.body = i
  outside : s.program.tree.size ≤ i

namespace Machine

variable {s : Setting} {scopes : Scopes}

section Strays

variable (o : s.program.tree.Ordered) (globals : s.globals < scopes.all.size)
  (live : ∀ c, s.Has scopes c → c.scope < scopes.all.size)
include o globals live

/-- If all functions have their scopes, a pass is broken by nothing but a node that is not in the
tree. -/
theorem strays_of_broken {budget : Nat} {fault : Fault}
    (h : ((start scopes).finish { s with budget } false).status = .broken fault) :
    ∃ i, s.Strays scopes i ∧ fault = .outside i s.program.tree.size := by
  let B (i : NodeId) : Prop := i < s.program.tree.size ∨ i = s.root ∨ ∃ c, s.Has scopes c ∧ c.body = i
  have among {c : Closure} (hc : s.Has scopes c) : c.Among B scopes.all.size :=
    ⟨.inr (.inr ⟨c, hc, rfl⟩), live c hc⟩
  have provides : ({ s with budget } : Setting).Provides B scopes.all.size :=
    ⟨.inr (.inl rfl), globals, fun _ _ he _ hc => among (.committed he hc),
      fun _ _ he _ hc => among (.streamed he hc)⟩
  have every : scopes.Every (Closure.Among B scopes.all.size) :=
    fun _ _ hx _ hb _ hc => among (.bound hx hb hc)
  rw [finish, run_eq_ticks] at h
  have poised := Poised.ticks (s := { s with budget }) o (fun _ hi => .inl hi)
    (poised_start provides every)
  obtain ⟨i, hi, outside, rfl⟩ := (poised _).faults fault h
  exact ⟨i, ⟨hi.resolve_left (Nat.not_lt.2 outside), outside⟩, rfl⟩

/-- A pass that has been run to the end has reached a terminal, or crashed. -/
theorem ended_or_crashed (budget : Nat) :
    (∃ T, ((start scopes).finish { s with budget } false).status = .ended T) ∨
      ∃ i, s.Strays scopes i ∧ ((start scopes).finish { s with budget } false).status =
        .broken (.outside i s.program.tree.size) := by
  cases hs : ((start scopes).finish { s with budget } false).status with
  | running =>
    have past := finish_not_running s scopes budget
    rw [isRunning, hs] at past
    cases past
  | ended T => exact .inl ⟨T, rfl⟩
  | broken fault =>
    obtain ⟨i, hi, rfl⟩ := strays_of_broken o globals live hs
    exact .inr ⟨i, hi, rfl⟩

/-- The pass without a budget goes on for ever, or ends with a value, or crashes. -/
theorem needs_or_exceeds_or_crashes :
    (∃ needed outcome, Needs s scopes needed outcome) ∨ (∀ budget, Exceeds s scopes budget) ∨
      ∃ needed i, s.Strays scopes i ∧ Crashes s scopes needed i := by
  rcases running_or_first s scopes with running | ⟨k, stopped, first, value | ⟨fault, hf⟩⟩
  · exact .inr (.inl fun budget => exceeds_of_running (running budget))
  · exact .inl ⟨k, _, (took_unlimited s scopes k first).steps, value,
      fun budget => finish_of_over stopped, fun budget hb => exceeds_of_running (first budget hb)⟩
  · have broken (budget : Nat) (hb : k ≤ budget) :
        ((start scopes).finish { s with budget } false).status = .broken fault := by
      rw [finish_of_over stopped hb, hf]
    obtain ⟨i, hi, rfl⟩ := strays_of_broken o globals live (broken k (Nat.le_refl k))
    exact .inr (.inr ⟨k, i, hi, broken, fun budget hb => exceeds_of_running (first budget hb)⟩)

end Strays

/-- The budget is a pure cut-off: no more steps are made than it has, and a pass that has been run to the
end is over for good. Either there is one number of steps that the pass needs, with the same value for
every budget that has them, or each budget is spent. The exception is a pass that is set on a node
outside of the tree, or finds a function with such a body: for it there may be one number of steps after
which it crashes instead, for every budget that has them. -/
theorem cut_off_or_needs {d : Draft} {body : NodeId} (ht : d.finish body = .ok s.program.tree)
    (globals : s.globals < scopes.all.size)
    (live : ∀ c, s.Has scopes c → c.scope < scopes.all.size) :
    (∀ budget n, ((start scopes).run { s with budget } false n).record.steps ≤ budget) ∧
    (∀ budget, ((start scopes).finish { s with budget } false).Over ∧
      ((∃ T, ((start scopes).finish { s with budget } false).status = .ended T) ∨
        ∃ i, s.Strays scopes i ∧ ((start scopes).finish { s with budget } false).status =
          .broken (.outside i s.program.tree.size))) ∧
    ((∃! needed, ∃ outcome, Needs s scopes needed outcome) ∨
      ((¬ ∃ needed outcome, Needs s scopes needed outcome) ∧ ∀ budget, Exceeds s scopes budget) ∨
      ∃! needed, ∃ i, s.Strays scopes i ∧ Crashes s scopes needed i) := by
  have o := Draft.finish_ordered ht
  refine ⟨steps_le_budget s scopes, fun budget => ⟨over_of_not_running (finish_not_running s scopes
    budget), ended_or_crashed o globals live budget⟩, ?_⟩
  rcases needs_or_exceeds_or_crashes o globals live with
    ⟨needed, outcome, h⟩ | h | ⟨needed, i, hi, h⟩
  · refine .inl ⟨needed, ⟨outcome, h⟩, fun k ⟨_, hk⟩ => ?_⟩
    exact eq_of_cuts (not_exceeds_of_needs hk) (not_exceeds_of_needs h) hk.short h.short
  · refine .inr (.inl ⟨?_, h⟩)
    rintro ⟨needed, _, hn⟩
    exact not_exceeds_of_needs hn (h needed)
  · refine .inr (.inr ⟨needed, ⟨i, hi, h⟩, fun k ⟨_, _, hk⟩ => ?_⟩)
    exact eq_of_cuts (not_exceeds_of_crashes hk) (not_exceeds_of_crashes h) hk.short h.short

/-- The program that says "abab" needs some steps for it, but no more than a hundred. -/
theorem twice_needs : ∃ needed outcome, Needs Twice.setting Twice.scopes needed outcome ∧
    0 < needed ∧ needed ≤ 100 ∧ outcome.status = .ended (.ofValue (.text "abab")) := by
  have hd : Twice.draft.finish 8 = .ok Twice.setting.program.tree := by decide +kernel
  have globals : Twice.setting.globals < Twice.scopes.all.size := by decide
  have live (c : Closure) (hc : Twice.setting.Has Twice.scopes c) : c.scope < Twice.scopes.all.size := by
    cases hc with
    | committed he hc => exact (Twice.alive.cache _ _ he c hc).2
    | streamed he hc => exact (Twice.alive.snapshot _ _ he c hc).2
    | bound hx hb hc => exact (Scopes.every_empty.addRoot (p := fun _ => False) _ _ hx _ hb c hc).elim
  have ends : ((start Twice.scopes).finish { Twice.setting with budget := 100 } false).status =
      .ended (.ofValue (.text "abab")) := by rfl
  have spent : ((start Twice.scopes).finish { Twice.setting with budget := 0 } false).status =
      .ended .budgetExceeded := by rfl
  have never : ¬ Exceeds Twice.setting Twice.scopes 100 := fun h => by
    have hx := h.status
    rw [ends] at hx
    cases hx
  obtain ⟨-, -, ⟨needed, ⟨outcome, h⟩, -⟩ | ⟨-, h⟩ | ⟨needed, ⟨i, -, h⟩, -⟩⟩ :=
    cut_off_or_needs hd globals live
  · have hle : needed ≤ 100 := Nat.le_of_not_lt fun hlt => never (h.short 100 hlt)
    refine ⟨needed, outcome, h, Nat.pos_of_ne_zero ?_, hle, by rw [← h.enough 100 hle, ends]⟩
    rintro rfl
    obtain ⟨v, hv⟩ := h.status
    rw [← h.enough 0 (Nat.le_refl 0), spent] at hv
    unfold Terminal.ofValue at hv
    split at hv <;> cases hv
  · exact absurd (h 100) never
  · have hle : needed ≤ 100 := Nat.le_of_not_lt fun hlt => never (h.short 100 hlt)
    have hx := h.crash 100 hle
    rw [ends] at hx
    cases hx

end Machine
end StreamLang
