import StreamLang.Machine.Basic
/-!
Running a machine tick by tick. Main statements: a machine that has ended stays as it is, however
often it is ticked (`run_of_ended`), and a run can be interrupted anywhere (`run_add`).
-/
namespace StreamLang.Machine

theorem call_of_lt {s : Setting} {i : NodeId} (h : i < s.program.tree.size) (m : Machine)
    (x : ScopeId) : m.call s i x = (m.setRecord (m.record.countEvaluation i)).put
      (.start i (s.program.tree.steps i) x) m.frames := if_neg (Nat.not_le.2 h)

theorem call_of_outside {s : Setting} {i : NodeId} (h : s.program.tree.size ≤ i) (m : Machine)
    (x : ScopeId) : m.call s i x = m.fail (.outside i s.program.tree.size) := if_pos h

/-- A call crashes or puts a frame on the stack. -/
theorem call_induction {I : Machine → Prop} {s : Setting} {m : Machine} {i : NodeId} {x : ScopeId}
    (crash : ∀ fault, I (m.fail fault))
    (run : i < s.program.tree.size → I ((m.setRecord (m.record.countEvaluation i)).put
      (.start i (s.program.tree.steps i) x) m.frames)) : I (m.call s i x) := by
  unfold call
  split
  · exact crash _
  · exact run (Nat.lt_of_not_le ‹_›)

/-- Enters the root, inside the globals. -/
def enterRoot (s : Setting) (m : Machine) : Machine :=
  let (scope, m) := m.openScope s.globals
  { m with started := true }.enter s s.root scope

/-- The first tick enters the root and takes no step. Each further one takes one step, if the budget
has one left. A request to abort is met before anything else. -/
def tick (s : Setting) (abort : Bool) (m : Machine) : Machine :=
  if !m.isRunning then m
  else if abort then m.cutOff .aborted
  else if !m.started then m.enterRoot s
  else if s.budget ≤ m.record.steps then m.cutOff .budgetExceeded
  else (m.setRecord m.record.countStep).step s

/-- Makes up to `n` ticks. -/
def run (s : Setting) (abort : Bool) : Nat → Machine → Machine
  | 0, m => m
  | n + 1, m => if m.isRunning then run s abort n (m.tick s abort) else m

/-- Runs to the end: a tick for the root, one for each step, and one to find the budget spent. -/
def finish (s : Setting) (abort : Bool) (m : Machine) : Machine := m.run s abort (s.budget + 2)

@[simp] theorem run_zero (s : Setting) (abort : Bool) (m : Machine) : m.run s abort 0 = m := rfl

theorem tick_of_ended {s : Setting} {abort : Bool} {m : Machine} (h : m.isRunning = false) :
    m.tick s abort = m := by simp [tick, h]

theorem run_of_ended {s : Setting} {abort : Bool} {m : Machine} (h : m.isRunning = false)
    (n : Nat) : m.run s abort n = m := by
  cases n <;> simp [run, h]

theorem run_succ (s : Setting) (abort : Bool) (m : Machine) (n : Nat) :
    m.run s abort (n + 1) = (m.tick s abort).run s abort n := by
  rw [run]
  split
  · rfl
  · rename_i h
    have h := Bool.eq_false_iff.2 h
    rw [tick_of_ended h, run_of_ended h]

theorem run_add (s : Setting) (abort : Bool) (m : Machine) (n k : Nat) :
    m.run s abort (n + k) = (m.run s abort n).run s abort k := by
  induction n generalizing m with
  | zero => simp
  | succ n ih => rw [Nat.succ_add, run_succ, run_succ, ih]

end StreamLang.Machine
