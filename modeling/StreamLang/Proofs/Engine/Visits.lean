import StreamLang.Proofs.Engine.Bodies
import StreamLang.Proofs.Engine.FromScratch
import StreamLang.Proofs.Machine.Visits
/-!
Only calls can loop. Within one pass a node outside of all functions is run once at most and written once at
most, unless a function of another program has its body there or around it; and a pass over a program
without calls makes no more steps than the program has. A function that is kept while the program is
replaced can have any node of the new program for its body, and then that node runs again.
-/
namespace StreamLang

namespace Machine

/-- Whatever is committed, marked, global and streamed, and whenever the pass is asked to abort: a node that
is not called is run once at most, and what is written for it stays. Without calls that goes for every
node, the pass makes no more steps than the nodes have, and it ends with one value for all budgets that
have as many, unless it is aborted. -/
theorem only_calls_loop {s : Setting} (accepted : s.program.tree.Accepted)
    (hroot : s.root = s.program.tree.root) (scopes : Scopes) :
    (∀ i : NodeId, s.Uncalled scopes i → ∀ aborts,
      (((start scopes).ticks s aborts).record.evaluations[i]?).getD 0 ≤ 1 ∧
      ∀ later w, Assoc.get? i ((start scopes).ticks s aborts).record.writes = some w →
        Assoc.get? i ((start scopes).ticks s (aborts ++ later)).record.writes = some w) ∧
    (s.program.tree.CallFree →
      (∀ aborts, (∀ i : NodeId, (((start scopes).ticks s aborts).record.evaluations[i]?).getD 0 ≤ 1) ∧
        ((start scopes).ticks s aborts).record.steps ≤ s.program.tree.work) ∧
      (∀ budget,
        ((start scopes).run { s with budget } false (s.program.tree.work + 1)).isRunning = false) ∧
      ∃ v, ∀ budget, s.program.tree.work ≤ budget →
        ((start scopes).finish { s with budget } false).status = .ended (.ofValue v) ∧
        ∀ aborts, ((start scopes).ticks { s with budget } aborts).status ≠ .ended .budgetExceeded) := by
  refine ⟨fun i uncalled aborts => ?_, fun free => ⟨fun aborts => ⟨fun i => ?_, ?_⟩, ?_, ?_⟩⟩
  · have visits := (Visits.start accepted.ordered uncalled).ticks accepted hroot uncalled aborts
    refine ⟨visits.count_le_one accepted, fun later w hw => ?_⟩
    have kept := visits.write_kept accepted hroot uncalled hw later
    rwa [ticks, ticks, ← List.foldl_append] at kept
  · exact ((Bounded.start s scopes).ticks accepted hroot free aborts).count_le_one accepted i
  · exact steps_ticks accepted hroot free scopes aborts
  · exact over_after_work accepted hroot free scopes
  · exact ended_of_work accepted hroot free scopes

/-- In the program that says "abab" the call outside of the function is run once at most. The program that
repeats what is typed has twenty steps, and ends with any budget of as many. -/
theorem twice_called_once :
    (∀ aborts, (((start Twice.scopes).ticks { Twice.setting with budget := 100 }
      aborts).record.evaluations[7]?).getD 0 ≤ 1) ∧
    ∃ v, ∀ budget, 20 ≤ budget →
      ((start Echo.fresh.scopes).finish { (Pass.opened Echo.fresh).setting with budget } false).status =
        .ended (.ofValue v) ∧
      ∀ aborts, ((start Echo.fresh.scopes).ticks { (Pass.opened Echo.fresh).setting with budget }
        aborts).status ≠ .ended .budgetExceeded := by
  have hd : Twice.draft.finish 8 = .ok Twice.tree := by decide +kernel
  have accepted : Twice.tree.Accepted := ⟨_, _, hd⟩
  have bodies : ∀ a < Twice.tree.size, 7 ≤ a → Twice.tree.isFunction a = false := by decide +kernel
  have uncalled : ({ Twice.setting with budget := 100 } : Setting).Uncalled Twice.scopes 7 := by
    refine ⟨fun a ha hne => ?_, fun c hc => ?_⟩
    · rcases ha.cases_head with rfl | ⟨c, hc, -⟩
      · exact absurd rfl hne
      · exact bodies a (Tree.lt_size_of_mem_children hc) (accepted.ordered.within_le ha)
    · refine (hc.of_every (p := fun _ => False) ⟨fun i e he => ?_, fun stream e he => ?_⟩ ?_).elim
      · simp [Twice.setting] at he
      · obtain ⟨-, rfl⟩ : (stream, e) = ("s", _) := List.mem_singleton.1 (Assoc.mem_of_get? he)
        exact Value.every_text _
      · exact Scopes.every_empty.addRoot
  have echo : (Pass.opened Echo.fresh).setting.program.tree.Accepted :=
    Echo.checked.trees.1 ▸ ⟨_, _, Echo.checked.built⟩
  have free : (Pass.opened Echo.fresh).setting.program.tree.CallFree :=
    Echo.checked.trees.1 ▸ Echo.incremental.1.callFree
  have work : (Pass.opened Echo.fresh).setting.program.tree.work = 20 := by decide +kernel
  refine ⟨fun aborts => ?_, ?_⟩
  · exact ((only_calls_loop accepted (by decide +kernel) Twice.scopes).1 7 uncalled aborts).1
  · exact work ▸ ((only_calls_loop echo rfl Echo.fresh.scopes).2 free).2.2

end Machine

/-- A pass over a program that makes no function runs a node twice: the node has the number that the body of
a function had in the program before. -/
theorem Stage.Reached.exists_run_twice : ∃ (e : Engine) (i : NodeId),
    Reached Tree.Accepted (fun _ => True) (.idle e) ∧
      (∀ a, e.program.tree.isFunction a = false) ∧
      ((Machine.start e.scopes).finish (Pass.opened e).setting false).record.evaluations[i]? = some 2 := by
  refine ⟨Stray.onto Stray.other, 0, Stray.reached_onto ⟨_, _, Stray.called.built⟩, fun a => ?_, ?_⟩
  · by_cases ha : a < (Stray.onto Stray.other).program.tree.size
    · exact Stray.called.plain a (List.mem_range.2 ha)
    · cases hk : (Stray.onto Stray.other).program.tree.kind? a with
      | none => rw [Tree.isFunction, hk]
      | some k => exact absurd (Tree.lt_size_of_kind hk) ha
  · decide +kernel

end StreamLang
