import Mathlib.Logic.Function.Iterate
import StreamLang.Host
/-!
The engine task, one thing after another: it takes a wake, drains the others, looks again and finds
none, makes a pass. Between any two of these others may send it more. If nobody does, it comes to what
`Host.taskStep` says at once; and when it is asked to shut down, it comes to its end.
-/
namespace StreamLang
namespace Host

/-- Where the task stands. Once it has taken a wake, it remembers whether it was asked to shut down by
any of those it has drained since. -/
inductive Phase where
  /-- Before the first pass. -/
  | fresh
  | waiting
  | draining (asked : Bool)
  /-- No wake is left; a pass comes next. -/
  | ready (asked : Bool)
  /-- It has seen enough and has not stopped the engine yet. -/
  | leaving
  | ended
  deriving DecidableEq

/-- A host while its task is somewhere on its way. -/
structure Moment where
  host : Host
  phase : Phase

namespace Moment

/-- The next thing that the task does, if there is any. -/
def task (x : Moment) : Moment :=
  match x.phase, x.host.wakes with
  | .fresh, _ => ⟨{ x.host with begun := true }.runPass, .waiting⟩
  | .waiting, [] => x
  | .waiting, .shutdown :: rest => ⟨{ x.host with wakes := rest }, .leaving⟩
  | .waiting, .evaluate :: rest => ⟨{ x.host with wakes := rest }, .draining false⟩
  | .draining asked, w :: rest => ⟨{ x.host with wakes := rest }, .draining (asked || w == .shutdown)⟩
  | .draining asked, [] => ⟨x.host, .ready asked⟩
  | .ready asked, _ => ⟨x.host.runPass, if asked then .leaving else .waiting⟩
  | .leaving, _ => ⟨{ x.host with wakes := [] }.finish, .ended⟩
  | .ended, _ => x

/-- A host whose task is not in the middle of anything. -/
def of (h : Host) : Moment := ⟨h, if h.ended then .ended else if h.begun then .waiting else .fresh⟩

section

variable {h : Host} {w : Wake} {rest : List Wake}

theorem task_wait (hw : h.wakes = []) : task ⟨h, .waiting⟩ = ⟨h, .waiting⟩ := by
  simp only [task, hw]

theorem task_take (hw : h.wakes = .evaluate :: rest) :
    task ⟨h, .waiting⟩ = ⟨{ h with wakes := rest }, .draining false⟩ := by
  simp only [task, hw]

theorem task_leave (hw : h.wakes = .shutdown :: rest) :
    task ⟨h, .waiting⟩ = ⟨{ h with wakes := rest }, .leaving⟩ := by
  simp only [task, hw]

theorem task_drain (hw : h.wakes = w :: rest) (asked : Bool) :
    task ⟨h, .draining asked⟩ =
      ⟨{ h with wakes := rest }, .draining (asked || w == .shutdown)⟩ := by
  simp only [task, hw]

theorem task_drained (hw : h.wakes = []) (asked : Bool) :
    task ⟨h, .draining asked⟩ = ⟨h, .ready asked⟩ := by
  simp only [task, hw]

end

end Moment

theorem runPass_engine (h : Host) : h.runPass.engine = h.engine.evaluate.2 := by
  unfold runPass
  split <;> rename_i heval <;> rw [heval]

theorem published_of_ok {h : Host} {v : Value} (hv : h.engine.evaluate.1 = .ok v) :
    h.runPass.published = some v := by
  unfold runPass
  split <;> rename_i heval <;> simp_all

theorem published_of_error {h : Host} {x : Error} (hx : h.engine.evaluate.1 = .error x) :
    h.runPass.published = h.published := by
  unfold runPass
  split <;> rename_i heval <;> simp_all

@[simp] theorem runPass_wakes (h : Host) : h.runPass.wakes = h.wakes := by
  unfold runPass
  split <;> rfl

@[simp] theorem runPass_begun (h : Host) : h.runPass.begun = h.begun := by
  unfold runPass
  split <;> rfl

@[simp] theorem runPass_ended (h : Host) : h.runPass.ended = h.ended := by
  unfold runPass
  split <;> rfl

namespace Moment

variable {x y z : Moment} {h : Host}

/-- Left to itself, the task comes from one moment to the other. -/
def LeadsTo (x y : Moment) : Prop := ∃ n, task^[n] x = y

namespace LeadsTo

theorem refl (x : Moment) : x.LeadsTo x := ⟨0, rfl⟩

theorem step (x : Moment) : x.LeadsTo x.task := ⟨1, rfl⟩

theorem trans (hxy : x.LeadsTo y) (hyz : y.LeadsTo z) : x.LeadsTo z := by
  obtain ⟨n, rfl⟩ := hxy
  obtain ⟨m, rfl⟩ := hyz
  exact ⟨m + n, Function.iterate_add_apply task m n x⟩

end LeadsTo

/-! ### If nobody interferes -/

theorem of_waiting (hb : h.begun = true) (he : h.ended = false) : of h = ⟨h, .waiting⟩ := by
  simp [of, hb, he]

theorem drains (h : Host) (asked : Bool) (wakes : List Wake) :
    LeadsTo ⟨{ h with wakes }, .draining asked⟩
      ⟨{ h with wakes := [] }, .ready (asked || wakes.contains .shutdown)⟩ := by
  induction wakes generalizing asked with
  | nil =>
    have hnone : (asked || [].contains Wake.shutdown) = asked := Bool.or_false asked
    exact hnone.symm ▸ LeadsTo.step ⟨{ h with wakes := [] }, .draining asked⟩
  | cons w rest ih =>
    have hasked : (asked || (w :: rest).contains .shutdown) =
        (asked || w == .shutdown || rest.contains .shutdown) := by
      rw [List.contains_cons, Bool.or_assoc, show (Wake.shutdown == w) = (w == .shutdown) from
        Bool.beq_comm]
    exact hasked ▸ (LeadsTo.step _).trans (ih (asked || w == .shutdown))

/-- If no wake has come in since, nothing is lost at the end. -/
theorem task_leaving (hw : h.wakes = []) : task ⟨h, .leaving⟩ = of h.finish := by
  obtain ⟨engine, begun, ended, wakes, published, clock, now⟩ := h
  obtain rfl : wakes = [] := hw
  rfl

/-- What the task does between two waits is done one thing after another. -/
theorem leadsTo_taskStep (h : Host) : (of h).LeadsTo (of h.taskStep) := by
  cases hended : h.ended with
  | true =>
    rw [taskStep, if_pos hended]
    exact .refl _
  | false =>
    cases hbegun : h.begun with
    | false =>
      have hfresh : of h = ⟨h, .fresh⟩ := by simp [of, hended, hbegun]
      have hstep : h.taskStep = { h with begun := true }.runPass := by simp [taskStep, hended, hbegun]
      have hwaiting : of { h with begun := true }.runPass = task ⟨h, .fresh⟩ :=
        of_waiting (runPass_begun _) ((runPass_ended _).trans hended)
      rw [hfresh, hstep, hwaiting]
      exact .step _
    | true =>
      have hstep : h.taskStep = h.answerWakes := by simp [taskStep, hended, hbegun]
      rw [hstep, of_waiting hbegun hended]
      cases hwakes : h.wakes with
      | nil =>
        have hnone : h.answerWakes = h := by simp only [answerWakes, hwakes]
        rw [hnone, of_waiting hbegun hended]
        exact .refl _
      | cons w rest =>
        cases w with
        | shutdown =>
          have hanswer : of h.answerWakes = task ⟨{ h with wakes := rest }, .leaving⟩ := by
            simp only [answerWakes, hwakes]
            rfl
          rw [hanswer, ← task_leave hwakes]
          exact (LeadsTo.step _).trans (.step _)
        | evaluate =>
          have hdrained : (task ⟨h, .waiting⟩).LeadsTo
              ⟨{ h with wakes := [] }, .ready (false || rest.contains .shutdown)⟩ :=
            task_take hwakes ▸ drains h false rest
          have hready := ((LeadsTo.step _).trans hdrained).trans (.step _)
          rw [Bool.false_or] at hready
          cases hasked : rest.contains .shutdown with
          | false =>
            have hanswer : h.answerWakes = { h with wakes := [] }.runPass := by
              simp only [answerWakes, hwakes, hasked, Bool.false_eq_true, if_false]
            have hwaiting : of { h with wakes := [] }.runPass =
                task ⟨{ h with wakes := [] }, .ready false⟩ :=
              of_waiting ((runPass_begun _).trans hbegun) ((runPass_ended _).trans hended)
            rw [hanswer, hwaiting]
            rw [hasked] at hready
            exact hready
          | true =>
            have hanswer : h.answerWakes = { h with wakes := [] }.runPass.finish := by
              simp only [answerWakes, hwakes, hasked, if_true]
            rw [hanswer, ← task_leaving (runPass_wakes _)]
            rw [hasked] at hready
            exact hready.trans (.step _)

/-! ### The end -/

/-- The task has been asked to shut down. -/
def Asked (x : Moment) : Prop :=
  match x.phase with
  | .fresh | .waiting => .shutdown ∈ x.host.wakes
  | .draining asked | .ready asked => asked = true ∨ .shutdown ∈ x.host.wakes
  | .leaving | .ended => True

/-- How far the task is from its end: each wake costs four steps at most. -/
def remaining (x : Moment) : Nat :=
  4 * x.host.wakes.length +
    match x.phase with
    | .fresh | .ready _ => 2
    | .waiting | .leaving => 1
    | .draining _ => 3
    | .ended => 0

/-- The task forgets nothing that it was asked. -/
theorem asked_task (x : Moment) : x.task.Asked ↔ x.Asked := by
  obtain ⟨h, phase⟩ := x
  cases phase with
  | fresh => simp [Asked, task]
  | waiting =>
    cases hw : h.wakes with
    | nil => rw [task_wait hw]
    | cons w rest =>
      cases w with
      | evaluate => simp [task_take hw, Asked, hw]
      | shutdown => simp [task_leave hw, Asked, hw]
  | draining asked =>
    cases hw : h.wakes with
    | nil => simp [task_drained hw, Asked, hw]
    | cons w rest => cases w <;> simp [task_drain hw, Asked, hw]
  | ready asked => cases asked <;> simp [Asked, task]
  | leaving => exact Iff.rfl
  | ended => exact Iff.rfl

theorem Asked.remaining_task (hx : x.Asked) (ho : x.phase ≠ .ended) :
    x.task.remaining < x.remaining := by
  obtain ⟨h, phase⟩ := x
  cases phase with
  | fresh => simp [remaining, Moment.task]
  | waiting =>
    cases hw : h.wakes with
    | nil => simp [Asked, hw] at hx
    | cons w rest =>
      cases w
      · simp only [remaining, Moment.task, hw, List.length_cons]
        omega
      · simp [remaining, Moment.task, hw]
  | draining asked => cases hw : h.wakes <;> simp [remaining, Moment.task, hw]
  | ready asked => cases asked <;> simp [remaining, Moment.task]
  | leaving => simp [remaining, Moment.task, finish]
  | ended => exact absurd rfl ho

/-- A task that has been asked to shut down does so, if only it is left to itself. -/
theorem Asked.leadsTo_over (hx : x.Asked) : ∃ y, x.LeadsTo y ∧ y.phase = .ended := by
  induction hn : x.remaining using Nat.strongRecOn generalizing x with
  | _ n ih =>
    by_cases ho : x.phase = .ended
    · exact ⟨x, .refl x, ho⟩
    · obtain ⟨y, hy, hover⟩ := ih _ (hn ▸ hx.remaining_task ho) (x.asked_task.2 hx) rfl
      exact ⟨y, (LeadsTo.step x).trans hy, hover⟩

end Moment
end Host
end StreamLang
